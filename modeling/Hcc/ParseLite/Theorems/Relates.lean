import Hcc.ParseLite.Theorems.Reads

namespace Hcc

variable {ρ τ ε α β : Type}

-- The replies are the same up to the environment that is left.
inductive Alike (R : ρ → ρ → Prop) :
    Option (Consumed (Reply ρ τ ε α)) → Option (Consumed (Reply ρ τ ε α)) → Prop
  | outOfFuel                    : Alike R none none
  | consumedError (e)            : Alike R (some (.consumed (.error e))) (some (.consumed (.error e)))
  | unconsumedError (e)          :
    Alike R (some (.unconsumed (.error e))) (some (.unconsumed (.error e)))
  | consumedOk (a rest) {x y}    : R x y →
    Alike R (some (.consumed (.ok a x rest))) (some (.consumed (.ok a y rest)))
  | unconsumedOk (a rest) {x y}  : R x y →
    Alike R (some (.unconsumed (.ok a x rest))) (some (.unconsumed (.ok a y rest)))

-- The parser cannot tell related environments apart, and it relates the ones that it leaves.
class Relates (R : ρ → ρ → Prop) (p : P ρ τ ε α) : Prop where
  alike (x y toks) : R x y → Alike R (p x toks) (p y toks)

namespace Relates

variable {R : ρ → ρ → Prop} {p q : P ρ τ ε α}

instance pure {a : α} : Relates R (Pure.pure a : P ρ τ ε α) where
  alike _ _ _ h := .unconsumedOk _ _ h

instance outOfFuel : Relates R (outOfFuelP : P ρ τ ε α) where
  alike _ _ _ _ := .outOfFuel

instance fail {e : ε} : Relates R (pFail e : P ρ τ ε α) where
  alike _ _ _ _ := .unconsumedError e

instance peek : Relates R (pPeekMaybe : P ρ τ ε (Option τ)) where
  alike _ _ _ h := .unconsumedOk _ _ h

instance skip {e : ε} : Relates R (pSkip e : P ρ τ ε Unit) where
  alike _ _ toks h := by
    cases toks
    case nil  => exact .unconsumedError e
    case cons => exact .consumedOk _ _ h

instance bind {f : α → P ρ τ ε β} [hp : Relates R p] [hf : ∀ a, Relates R (f a)] :
    Relates R (p >>= f) where
  alike x y toks h := by
    have hp := hp.alike x y toks h
    simp only [Bind.bind, P.bind]
    revert hp
    generalize p x toks = reply, p y toks = reply'
    intro hp
    cases hp
    case outOfFuel       => exact .outOfFuel
    case consumedError   => exact .consumedError _
    case unconsumedError => exact .unconsumedError _
    case unconsumedOk a rest x' y' h => exact (hf a).alike x' y' rest h
    case consumedOk a rest x' y' h =>
      have hf := (hf a).alike x' y' rest h
      simp only [Option.bind_some]
      revert hf
      generalize f a x' rest = reply, f a y' rest = reply'
      intro hf
      cases hf
      case outOfFuel                         => exact .outOfFuel
      case consumedError | unconsumedError   => exact .consumedError _
      case consumedOk h | unconsumedOk h     => exact .consumedOk _ _ h

theorem chain {f : α → P ρ τ ε β} (hp : Relates R p) (hf : ∀ a, Relates R (f a)) :
    Relates R (p >>= f) :=
  bind

instance ite {c : Prop} [Decidable c] [hp : Relates R p] [hq : Relates R q] :
    Relates R (if c then p else q) := by
  split
  case isTrue  => exact hp
  case isFalse => exact hq

instance seqLeft {q : P ρ τ ε β} [Relates R p] [Relates R q] : Relates R (p <* q) :=
  inferInstanceAs <| Relates R (p >>= fun a => q >>= fun _ => Pure.pure a)

instance map {f : α → β} [Relates R p] : Relates R (f <$> p) :=
  inferInstanceAs <| Relates R (p >>= fun a => Pure.pure (f a))

-- Whatever is read off the environment has to be the same in related ones.
theorem env {f : ρ → P ρ τ ε α} (h : ∀ x y, R x y → f x = f y) [hf : ∀ x, Relates R (f x)] :
    Relates R (pEnv >>= f) where
  alike x y toks hr := by
    change Alike R (f x x toks) (f y y toks)
    rw [← h x y hr]
    exact (hf x).alike x y toks hr

instance «try» [hp : Relates R p] : Relates R (pTry p) where
  alike x y toks h := by
    have hp := hp.alike x y toks h
    simp only [pTry]
    revert hp
    generalize p x toks = reply, p y toks = reply'
    intro hp
    cases hp
    case outOfFuel                       => exact .outOfFuel
    case consumedError | unconsumedError => exact .unconsumedError _
    case consumedOk h                    => exact .consumedOk _ _ h
    case unconsumedOk h                  => exact .unconsumedOk _ _ h

instance optional [hp : Relates R p] : Relates R (pOptional p) where
  alike x y toks h := by
    have hp := hp.alike x y toks h
    simp only [pOptional]
    revert hp
    generalize p x toks = reply, p y toks = reply'
    intro hp
    cases hp
    case outOfFuel       => exact .outOfFuel
    case consumedError   => exact .consumedError _
    case unconsumedError => exact .unconsumedOk _ _ h
    case consumedOk h    => exact .consumedOk _ _ h
    case unconsumedOk h  => exact .unconsumedOk _ _ h

instance many [Relates R p] {fuel : Nat} : Relates R (pMany p fuel) := by
  induction fuel
  case zero => exact outOfFuel
  case succ fuel _ =>
    rw [pMany]
    refine .chain optional fun a => ?_
    cases a <;> infer_instance

instance manyUntil {stop : P ρ τ ε Bool} [Relates R stop] [Relates R p] {fuel : Nat} :
    Relates R (pManyUntil stop p fuel) := by
  induction fuel
  case zero => exact outOfFuel
  case succ fuel _ =>
    rw [pManyUntil]
    infer_instance

-- The outer environments are restored by a scope, so they only have to be related on the way in.
theorem scope {enter : ρ → ρ} (h : ∀ x y, R x y → R (enter x) (enter y)) [hp : Relates R p] :
    Relates R (pLocalEnv enter (fun outer _ => outer) p) where
  alike x y toks hr := by
    have hp := hp.alike _ _ toks (h x y hr)
    simp only [pLocalEnv]
    revert hp
    generalize p (enter x) toks = reply, p (enter y) toks = reply'
    intro hp
    cases hp
    case outOfFuel       => exact .outOfFuel
    case consumedError   => exact .consumedError _
    case unconsumedError => exact .unconsumedError _
    case consumedOk      => exact .consumedOk _ _ hr
    case unconsumedOk    => exact .unconsumedOk _ _ hr

-- A parser yields the same in a related environment.
theorem yields [hp : Relates R p] {env env' env₁ : ρ} {toks rest : List τ} {a : α}
    (hr : R env env') (h : Yields p env toks a env₁ rest) : ∃ env₂, Yields p env' toks a env₂ rest ∧ R env₁ env₂ := by
  have hp := hp.alike env env' toks hr
  have ⟨reply, hx, h⟩ := Option.map_eq_some_iff.mp h
  rw [hx] at hp
  cases hy : p env' toks <;> rw [hy] at hp <;> cases hp
  case consumedError | unconsumedError => cases h
  case consumedOk hr | unconsumedOk hr =>
    cases h
    exact ⟨_, by simp [Yields, hy, forceConsumed], hr⟩

end Relates
end Hcc
