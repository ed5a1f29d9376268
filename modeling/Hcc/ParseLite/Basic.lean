import Mathlib.Init

namespace Hcc

inductive Consumed (α : Type)
  | consumed   (a : α)
  | unconsumed (a : α)
deriving DecidableEq, Repr

inductive Reply (ρ τ ε α : Type)
  | ok    (a : α) (env : ρ) (rest : List τ)
  | error (err : ε)
deriving DecidableEq, Repr

-- Parsers with an environment `ρ` over tokens `τ`. A parser that runs out of fuel has no reply.
def P (ρ τ ε α : Type) := ρ → List τ → Option (Consumed (Reply ρ τ ε α))

def forceConsumed : Consumed α → α
  | .consumed a | .unconsumed a => a

def mapConsumed (f : α → β) : Consumed α → Consumed β
  | .consumed a   => .consumed (f a)
  | .unconsumed a => .unconsumed (f a)

namespace P

variable {ρ τ ε α β : Type}

def pure (a : α) : P ρ τ ε α :=
  fun env toks => some <| .unconsumed <| .ok a env toks

def bind (p : P ρ τ ε α) (f : α → P ρ τ ε β) : P ρ τ ε β :=
  fun env toks => do
    match ← p env toks with
    | .unconsumed (.error e)         => some <| .unconsumed <| .error e
    | .unconsumed (.ok a env' rest)  => f a env' rest
    | .consumed (.error e)           => some <| .consumed <| .error e
    | .consumed (.ok a env' rest)    => .consumed <$> forceConsumed <$> f a env' rest

instance : Monad (P ρ τ ε) where
  pure := pure
  bind := bind

end P

def outOfFuelP : P ρ τ ε α :=
  fun _ _ => none

def parseRest (p : P ρ τ ε α) (env : ρ) (toks : List τ) : Option (Except ε (α × List τ)) :=
  (p env toks).map fun reply =>
    match forceConsumed reply with
    | .error e     => .error e
    | .ok a _ rest => .ok (a, rest)

def pEnv : P ρ τ ε ρ :=
  fun env toks => some <| .unconsumed <| .ok env env toks

def pSetEnv (env : ρ) : P ρ τ ε Unit :=
  fun _ toks => some <| .unconsumed <| .ok () env toks

def pLocalEnv (enter : ρ → ρ) (leave : (outer inner : ρ) → ρ) (p : P ρ τ ε α) : P ρ τ ε α :=
  fun env toks => (p (enter env) toks).map <| mapConsumed fun
    | .error e        => .error e
    | .ok a env' rest => .ok a (leave env env') rest

def pRaw (p : ρ → List τ → Consumed (Reply ρ τ ε α)) : P ρ τ ε α :=
  fun env toks => some <| p env toks

def pFail (err : ε) : P ρ τ ε α :=
  pRaw fun _ _ => .unconsumed <| .error err

def pPeekMaybe : P ρ τ ε (Option τ) :=
  pRaw fun env toks => .unconsumed <| .ok toks.head? env toks

def pTake (eofErr : ε) : P ρ τ ε τ :=
  pRaw fun env toks =>
    match toks with
    | []          => .unconsumed <| .error eofErr
    | tok :: rest => .consumed <| .ok tok env rest

def pSkip (eofErr : ε) : P ρ τ ε Unit :=
  pRaw fun env toks =>
    match toks with
    | []        => .unconsumed <| .error eofErr
    | _ :: rest => .consumed <| .ok () env rest

def pTry (p : P ρ τ ε α) : P ρ τ ε α :=
  fun env toks => (p env toks).map fun
    | .consumed (.error e) => .unconsumed (.error e)
    | reply                => reply

def pOptional (p : P ρ τ ε α) : P ρ τ ε (Option α) :=
  fun env toks => (p env toks).map fun
    | .unconsumed (.error _)        => .unconsumed <| .ok none env toks
    | .unconsumed (.ok a env' rest) => .unconsumed <| .ok (some a) env' rest
    | .consumed (.ok a env' rest)   => .consumed <| .ok (some a) env' rest
    | .consumed (.error e)          => .consumed <| .error e

def pMany (p : P ρ τ ε α) : (fuel : Nat) → P ρ τ ε (List α)
  | 0        => outOfFuelP
  | fuel + 1 => do
    match ← pOptional p with
    | none   => return []
    | some a => return a :: (← pMany p fuel)

def pManyUntil (stop : P ρ τ ε Bool) (item : P ρ τ ε α) : (fuel : Nat) → P ρ τ ε (List α)
  | 0        => outOfFuelP
  | fuel + 1 => do
    if ← stop then return []
    else
      let a ← item
      return a :: (← pManyUntil stop item fuel)

end Hcc
