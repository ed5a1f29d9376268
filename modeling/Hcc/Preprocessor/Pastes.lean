import Hcc.Preprocessor.Conditional

namespace Hcc

-- The invocation of a function-like macro at the front of a source: the tokens after its opening
-- parenthesis up to the closing one, and the rest of the source.
inductive Invokes (macros : Macros) : List PPToken → List PPToken → List PPToken → Prop
  | mk : original.token.kind = .ident name → name ∉ original.hidden →
    symbolMapLookup name macros = some (.function key params variadic body) →
    opening.token.kind = .punct "(" →
    collectInvocationArgs original.token.span (enclosed ++ rest) = .ok (args, commas, closeHidden, rest) →
    Invokes macros (original :: opening :: (enclosed ++ rest)) enclosed rest

def macroBody : Macro → List Token
  | .object _ body | .function _ _ _ body => body

-- Every pair of tokens that is pasted satisfies `Q`.
variable (Q : PPToken → PPToken → Prop)

def PastesPieces (previous next : List MacroPiece) : Prop :=
  ∀ l r, previous.getLast? = some (.token l) → next.head? = some (.token r) → Q l r

-- The arguments whose prescan is demanded satisfy `demand`.
def PastesBody (args : MacroArgs) (demand : MacroArg → Prop) (acc : List MacroPiece) :
    List PPToken → Prop
  | []          => True
  | tok :: rest =>
    match tok.token.kind with
    | .punct "#" =>
      match rest with
      | []         => True
      | next :: xs =>
        match boundArg args next with
        | some arg =>
          let text := stringifyTokens arg.raw
          PastesBody args demand (.token ⟨[], tok.space, ⟨next.token.span, .string text⟩⟩ :: acc) xs
        | none     => PastesBody args demand (.token tok :: acc) (next :: xs)
    | .punct "##" =>
      match rest with
      | []         => True
      | next :: xs =>
        PastesPieces Q (acc.take 1) (rawPieces args next) ∧
          ∀ acc', pasteWithPrevious tok.token.span (acc.take 1) (rawPieces args next) acc.tail = .ok acc' →
            PastesBody args demand acc' xs
    | _ =>
      match boundArg args tok with
      | none     => PastesBody args demand (.token tok :: acc) rest
      | some arg =>
        match rest with
        | []         => demand arg
        | next :: xs =>
          if next.token.kind = .punct "##" then
            match xs with
            | []             => True
            | operand :: xs' =>
              PastesPieces Q (rawPieces args tok) (rawPieces args operand) ∧
                ∀ acc', pasteWithPrevious next.token.span (rawPieces args tok) (rawPieces args operand) acc = .ok acc' →
                  PastesBody args demand acc' xs'
          else
            demand arg ∧ ∀ e, arg.expanded = .done (.ok e) →
              PastesBody args demand ((substitutionPieces tok.space e).reverse ++ acc) (next :: xs)

section

variable (macros : Macros) (prescan : List PPToken → Expand Expansion) (demand : List PPToken → Prop)

-- The expansion of the next token.
def PastesNext : List PPToken → Prop
  | []               => True
  | original :: rest =>
    match original.token.kind, rest with
    | .ident name, ⟨_, _, ⟨_, .punct "("⟩⟩ :: afterOpen =>
      name ∉ original.hidden → ∀ key params variadic body,
        symbolMapLookup name macros = some (.function key params variadic body) →
        ∀ args commas closeHidden rest' bound,
          collectInvocationArgs original.token.span afterOpen = .ok (args, commas, closeHidden, rest') →
          bindMacroArgs prescan original.token.span params variadic args commas = .ok bound →
          PastesBody Q bound (fun arg => demand (leadingSpace false arg.raw)) []
            (leadingSpace original.space (replacementTokens original.token.span body))
    | _, _ => True

end

-- The expansion of a source, and of the arguments that it prescans.
def PastesSource (macros : Macros) : (fuel : Nat) → (rest : List PPToken) → Prop
  | 0,        _    => True
  | fuel + 1, rest =>
    PastesNext Q macros (expandSource.go macros fuel · false []) (PastesSource macros fuel) rest ∧
      ∀ expanded rest' trailing,
        expandNextSource (expandSource.go macros fuel · false []) macros rest =
          .done (.ok (expanded, rest', trailing)) → PastesSource macros fuel rest'

end Hcc
