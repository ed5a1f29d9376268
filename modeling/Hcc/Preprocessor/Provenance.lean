import Hcc.Preprocessor.Pastes

namespace Hcc

def TokenKind.isDirective : TokenKind → Bool
  | .directive _ => true
  | _            => false

-- The spelling of the operands is not lexed as a directive.
def PlainPaste (l r : PPToken) : Prop :=
  ∀ tok, lexC (tokenText l.token.kind ++ tokenText r.token.kind) = .ok [tok] → tok.kind.isDirective = false

-- A condition on the macros, the fuel and the source, before a token is expanded.
abbrev ExpandCondition := Macros → Nat → List PPToken → Prop

-- No directive lies between the parentheses of an invocation.
def PlainInvocation : ExpandCondition :=
  fun macros _ rest => ∀ inner rest', Invokes macros rest inner rest' → ∀ tok ∈ inner, tok.token.kind.isDirective = false

-- No paste forms a directive, neither in the expansion nor in the prescans that it demands.
def PlainPastes : ExpandCondition :=
  fun macros fuel rest =>
    PastesNext PlainPaste macros (expandSource macros fuel) (PastesSource PlainPaste macros fuel) rest

-- The states that are reached by preprocessing, with the directives that have been handled.
inductive Reaches (condition : ExpandCondition) (bound : Nat) (toks : List Token) :
    (fuel : Nat) → Macros → List IfFrame → (rest acc : List PPToken) → (handled : List Token) → Prop
  | start : Reaches condition bound toks bound symbolMapEmpty [] (sourceFromTokens toks) [] []
  | directive : Reaches condition bound toks (fuel + 1) macros frames (tok :: rest) acc handled →
    tok.token.kind = .directive text →
    handleDirective macros frames fuel tok.token.span text = .done (.ok (macros', frames')) →
    Reaches condition bound toks fuel macros' frames' rest acc (handled ++ [tok.token])
  | expand : Reaches condition bound toks (fuel + 1) macros frames (tok :: rest) acc handled →
    tok.token.kind.isDirective = false → ifStackActive frames = true → condition macros fuel (tok :: rest) →
    expandNextSource (expandSource macros fuel) macros (tok :: rest) = .done (.ok (expanded, next, trailing)) →
    Reaches condition bound toks fuel macros frames next (acc ++ expanded) handled
  | skip : Reaches condition bound toks (fuel + 1) macros frames (tok :: rest) acc handled →
    tok.token.kind.isDirective = false → ifStackActive frames = false →
    Reaches condition bound toks fuel macros frames rest acc handled

-- The handled directives are the ones of the first tokens of the source. Tokens in front of the others
-- are no directives.
structure HandlesSource (toks : List Token) (rest : List PPToken) (handled : List Token) (n : Nat)
    (front : List Token) : Prop where
  handled : handled = (toks.take n).filter (·.kind.isDirective)
  rest    : rest.map PPToken.token = front ++ toks.drop n
  front   : ∀ tok ∈ front, tok.kind.isDirective = false

end Hcc
