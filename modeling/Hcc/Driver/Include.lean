import Hcc.Driver.Basic

-- The expansion of includes in `IncludeExpand.hs`.
namespace Hcc

abbrev SymbolSet := SymbolMap Unit

def symbolSetEmpty : SymbolSet :=
  symbolMapEmpty

def symbolSetMember (k : String) (s : SymbolSet) : Bool :=
  symbolMapMember k s

def symbolSetInsert (k : String) (s : SymbolSet) : SymbolSet :=
  symbolMapInsert k () s

-- What the runtime knows of the files. A canonical path names the file itself, if it exists, and the text of a file
-- is `none` if it cannot be read.
structure FileSystem where
  canonicalize : List Char → List Char
  exists?      : List Char → Bool
  read         : List Char → Option (List Char)

section Paths

def hccPathJoin (left right : List Char) : List Char :=
  if left = [] then right
  else if right = [] then left
  else if left.getLast? = some '/' then left ++ right
  else left ++ '/' :: right

def hccTakeDirectory (path : List Char) : List Char :=
  match path.reverse.dropWhile (· ≠ '/') with
  | '/' :: rest => if rest = [] then ['/'] else rest.reverse
  | _           => ['.']

def hccFilterExisting (fs : FileSystem) (paths : List (List Char)) : List (List Char) :=
  paths.filter fs.exists?

end Paths

def textLines : List Char → List (List Char)
  | []           => []
  | '\n' :: rest => [] :: textLines rest
  | c :: rest    =>
    match textLines rest with
    | []          => [[c]]
    | line :: ls  => (c :: line) :: ls

section Includes

def stripIncludeDelims.finish (delim : Char) (rest : List Char) : Option (List Char) :=
  match rest.dropWhile (· ≠ delim) with
  | _ :: tailText =>
    let name := rest.takeWhile (· ≠ delim)
    if name ≠ [] ∧ trim tailText = [] then some name else none
  | []            => none

def stripIncludeDelims : List Char → Option (List Char)
  | '"' :: rest => stripIncludeDelims.finish '"' rest
  | '<' :: rest => stripIncludeDelims.finish '>' rest
  | _           => none

-- The operand of an include as it is spelled after its expansion.
def expandOperandText (macros : Macros) (fuel : Nat) (toks : List Token) : Expand (List Char) := do
  let e ← expandSource macros fuel (sourceFromTokens toks)
  return (sourceSpelling e.tokens).toList

def includeRequest (macros : Macros) (fuel : Nat) (text : List Char) : Expand (Option (List Char)) :=
  match stripIncludeDelims (trim text) with
  | some name => return some name
  | none      => do
    let toks ← match lexC (.ofList text) with
      | .error e   => throw ⟨e.pos, e.message⟩
      | .ok result => pure result
    return stripIncludeDelims (← expandOperandText macros fuel toks)

end Includes

-- A walk ends early with the message of the first error.
abbrev Walk := Fueled String

def requirePP (result : Expand α) : Walk α :=
  match result with
  | some (.error e) => throw ("hcpp:" ++ showPos e.pos ++ ": " ++ e.message)
  | some (.ok a)    => return a
  | none            => Fueled.outOfFuel

-- The text for a file, the files that are not included again and the macros after it.
abbrev WalkResult := List Char × SymbolSet × Macros

section Walk

variable (fs : FileSystem) (includeDirs : List (List Char)) (fuel : Nat)

def readSourceWithIncludes.sp : Span :=
  ⟨⟨1, 1⟩, ⟨1, 1⟩⟩

def findInclude (currentDir name : List Char) : Option (List Char) :=
  (hccFilterExisting fs (hccPathJoin currentDir name :: includeDirs.map (hccPathJoin · name))).head?

section Lines

-- The expansion of an included file.
variable (expandFile : SymbolSet → Macros → List Char → Walk WalkResult)
variable (key : List Char) (once : SymbolSet) (macros : Macros) (frames : List IfFrame)

def expandLine.keep (line : List Char) : List Char :=
  line ++ ['\n']

def expandLine.condition (line : List Char) (directive : IfDirective) : Walk (WalkResult × List IfFrame) :=
  match applyIfDirective frames directive with
  | some frames' => return ((expandLine.keep line, once, macros), frames')
  | none         => throw ("hcpp: unmatched conditional in " ++ .ofList key)

def expandLine.define (line rest : List Char) : Walk (WalkResult × List IfFrame) := do
  let macros' ← requirePP (liftM (defineMacro macros readSourceWithIncludes.sp rest))
  return ((expandLine.keep line, once, macros'), frames)

def expandLine.undef (line rest : List Char) : Walk (WalkResult × List IfFrame) :=
  match directiveName rest with
  | some name => return ((expandLine.keep line, once, symbolMapDelete name macros), frames)
  | none      => throw "hcpp: #undef without macro name"

def expandLine.include (rest : List Char) : Walk (WalkResult × List IfFrame) := do
  match ← requirePP (includeRequest macros fuel rest) with
  | none      => throw "hcpp: invalid active #include operand"
  | some name =>
    match findInclude fs includeDirs (hccTakeDirectory key) name with
    | none      => throw ("hcpp: cannot find include file " ++ showString (.ofList name))
    | some file => do
      let e ← expandFile once macros file
      return (e, frames)

def expandLine (line : List Char) : Walk (WalkResult × List IfFrame) :=
  let active := ifStackActive frames
  let ⟨name, rest⟩ := parseDirective (.ofList line)
  let condition := expandLine.condition key once macros frames line
  let defined := (directiveName rest).map (symbolMapMember · macros)
  match name with
  | "ifdef"   => condition (.if (defined.getD false))
  | "ifndef"  => condition (.if ((defined.map (!·)).getD false))
  | "if"      => do condition (.if (← requirePP (evalEligibleIf active macros fuel rest)))
  | "elif"    => do condition (.elif (← requirePP (evalEligibleIf (elifEligible frames) macros fuel rest)))
  | "else"    => condition .else
  | "endif"   => condition .endif
  | "define"  =>
    if active then expandLine.define once macros frames line rest
    else return ((expandLine.keep line, once, macros), frames)
  | "undef"   =>
    if active then expandLine.undef once macros frames line rest
    else return ((expandLine.keep line, once, macros), frames)
  | "pragma"  =>
    if active ∧ trim rest = "once".toList then
      return ((expandLine.keep line, symbolSetInsert (.ofList key) once, macros), frames)
    else return ((expandLine.keep line, once, macros), frames)
  | "include" =>
    if active then expandLine.include fs includeDirs fuel expandFile key once macros frames rest
    else return ((expandLine.keep line, once, macros), frames)
  | _         => return ((expandLine.keep line, once, macros), frames)

def expandLines (once : SymbolSet) (macros : Macros) (frames : List IfFrame) : List (List Char) → Walk WalkResult
  | []           =>
    if frames = [] then return ([], once, macros)
    else throw ("hcpp: unterminated conditional in " ++ .ofList key)
  | line :: rest => do
    let ((expanded, once', macros'), frames') ←
      expandLine fs includeDirs fuel expandFile key once macros frames line
    let (tailText, once'', macros'') ← expandLines once' macros' frames' rest
    return (expanded ++ tailText, once'', macros'')

end Lines

-- `nesting` is the number of levels that are left.
def expandFile : (nesting : Nat) → SymbolSet → Macros → List Char → Walk WalkResult
  | nesting, once, macros, file =>
    let key := fs.canonicalize file
    if symbolSetMember (.ofList key) once then return ([], once, macros)
    else match nesting with
      | 0           => throw "hcpp: include nesting exceeds 200"
      | nesting + 1 =>
        match fs.read key with
        | none        => throw ("hcc: cannot read " ++ .ofList key)
        | some source =>
          expandLines fs includeDirs fuel (expandFile nesting) key once macros []
            (textLines (stripComments (spliceContinuations source)))

def addDefine (macros : Macros) (define : List Char × List Char) : Except PreprocessError Macros :=
  defineMacro macros readSourceWithIncludes.sp (define.1 ++ ' ' :: define.2)

def renderDefines.line (define : List Char × List Char) : List Char :=
  "#define ".toList ++ (define.1 ++ ' ' :: define.2)

def renderDefines : List (List Char × List Char) → List Char
  | []             => []
  | define :: rest => renderDefines.line define ++ '\n' :: renderDefines rest

def readSourceWithIncludes (defines : List (List Char × List Char)) (path : List Char) : Walk (List Char) := do
  let initial ← requirePP (liftM (defines.foldlM addDefine symbolMapEmpty))
  let (text, _, _) ← expandFile fs includeDirs fuel 200 symbolSetEmpty initial path
  return text

end Walk
end Hcc
