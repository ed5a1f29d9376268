import Hcc.Lexer.Token
import Hcc.Literal.Basic
import Hcc.ParseLite.Basic

namespace Hcc

def binopArith : String → Option Int
  | "||"                    => some 3
  | "&&"                    => some 4
  | "|"                     => some 5
  | "^"                     => some 6
  | "&"                     => some 7
  | "==" | "!="             => some 8
  | "<" | "<=" | ">" | ">=" => some 9
  | "<<" | ">>"             => some 10
  | "+" | "-"               => some 11
  | "*" | "/" | "%"         => some 12
  | _                       => none

-- The environment is the size of `long` and the values of the constants.
abbrev ConstParser := P (Nat × List (String × Constant)) Token String

def advanceP : ConstParser Unit :=
  pSkip "unexpected end of constant expression"

def constEatPunct (expected : String) : ConstParser Bool :=
  pRaw fun env toks =>
    match toks with
    | ⟨_, .punct punct⟩ :: rest =>
      if punct = expected then .consumed <| .ok true env rest else .unconsumed <| .ok false env toks
    | _ => .unconsumed <| .ok false env toks

def constNeedPunct (expected err : String) : ConstParser Unit := do
  if ← constEatPunct expected then return () else pFail err

-- The operand to the right is evaluated.
def rhsLive (op : String) (lhs : Constant) : Bool :=
  match op with
  | "&&" => constantTrue lhs
  | "||" => !constantTrue lhs
  | _    => true

def constInt (pp : Bool) : (value : Int) → Constant :=
  constantInt (if pp then 8 else 4)

def applyOp (pp live : Bool) (op : String) (a b : Constant) : ConstParser Constant :=
  match constantBinary op a b with
  | .error msg =>
    if live then pFail msg
    else
      let c := if op = "<<" || op = ">>" then a else (constantCommon a b).1
      return { c with bytes := List.replicate c.size 0 }
  | .ok value =>
    return if op ∈ ["<", "<=", ">", ">=", "==", "!=", "&&", "||"]
      then constInt pp (boolToInt (constantTrue value)) else value

def constLeaf (pp : Bool) (tok : Token) : ConstParser Constant :=
  match tok.kind with
  | .ident name => do
    match (← pEnv).2.lookup name with
    | some value => return value
    | none       => if pp then return constInt pp 0 else pFail ("unknown constant: " ++ name)
  | .int text   => do
    match constantLiteralChecked (← pEnv).1 pp text.toList with
    | .ok value  => return value
    | .error msg => pFail msg
  | .char text  => return constInt pp (charValue text.toList)
  | _           => pFail "unsupported token in constant expression"

mutual

def expression (pp live : Bool) (minPrec : Int) : (fuel : Nat) → ConstParser Constant
  | 0        => outOfFuelP
  | fuel + 1 => do climb pp live minPrec (← parseUnary pp live fuel) fuel

-- The operators to the right of `lhs` that bind at least as tight as `minPrec`.
def climb (pp live : Bool) (minPrec : Int) (lhs : Constant) : (fuel : Nat) → ConstParser Constant
  | 0        => outOfFuelP
  | fuel + 1 => do
    match (← pPeekMaybe).map Token.kind with
    | some (.punct op) =>
      if op = "?" && minPrec ≤ 2 then
        advanceP
        let yes ← expression pp (live && constantTrue lhs) 0 fuel
        constNeedPunct ":" "expected ':' in constant expression"
        let no ← expression pp (live && !constantTrue lhs) 2 fuel
        let (yes', no') := constantCommon yes no
        climb pp live minPrec (if constantTrue lhs then yes' else no') fuel
      else match binopArith op with
        | none      => return lhs
        | some prec =>
          if prec ≥ minPrec then
            advanceP
            let rhs ← expression pp (live && rhsLive op lhs) (prec + 1) fuel
            climb pp live minPrec (← applyOp pp live op lhs rhs) fuel
          else return lhs
    | _ => return lhs

def parseUnary (pp live : Bool) : (fuel : Nat) → ConstParser Constant
  | 0        => outOfFuelP
  | fuel + 1 => do
    match (← pPeekMaybe).map Token.kind with
    | none              => pFail "empty constant expression"
    | some (.punct "!") => do
      advanceP
      return constInt pp (boolToInt (!constantTrue (← parseUnary pp live fuel)))
    | some (.punct "+") => do
      advanceP
      parseUnary pp live fuel
    | some (.punct "-") => do
      advanceP
      return constantUnary "-" (← parseUnary pp live fuel)
    | some (.punct "~") => do
      advanceP
      return constantUnary "~" (← parseUnary pp live fuel)
    | some _ => parsePrimary pp live fuel

def parsePrimary (pp live : Bool) : (fuel : Nat) → ConstParser Constant
  | 0        => outOfFuelP
  | fuel + 1 => do
    if ← constEatPunct "(" then
      let value ← expression pp live 0 fuel
      constNeedPunct ")" "expected ')' in constant expression"
      return value
    else constLeaf pp (← pTake "empty constant expression")

end

def parseTypedConstExprTarget (bits : Nat) (env : List (String × Constant)) (toks : List Token) :
    Option (Except String (Constant × List Token)) :=
  parseRest (expression false true 0 (3 * toks.length + 3)) (if bits ≤ 32 then 4 else 8, env) toks

-- The fuel suffices for every expression, as there are at most three nested calls for each token. The
-- signed and unsigned integer types of `#if` act as `intmax_t` and `uintmax_t`.
def parsePPConstExpr (toks : List Token) : Option (Except String (Bool × List Token)) :=
  (parseRest (expression true true 0 (3 * toks.length + 3)) (8, []) toks).map fun result => do
    let (value, rest) ← result
    return (constantTrue value, rest)

end Hcc
