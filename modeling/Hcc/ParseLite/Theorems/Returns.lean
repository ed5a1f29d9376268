import Hcc.ParseLite.Basic
import Mathlib.Data.Nat.Basic

namespace Hcc

variable {ρ τ ε α β : Type} {p : P ρ τ ε α} {f : α → P ρ τ ε β} {toks : List τ} {n m : Nat}

-- The parser does not run out of fuel, and it leaves at most `n` tokens if it succeeds.
def Returns (p : P ρ τ ε α) (toks : List τ) (n : Nat) : Prop :=
  ∀ env, ∃ reply, p env toks = some reply ∧
    ∀ a env' rest, forceConsumed reply = .ok a env' rest → rest.length ≤ n

theorem Returns.mono (h : Returns p toks n) (hm : n ≤ m) : Returns p toks m :=
  fun env => have ⟨reply, hr, hn⟩ := h env
    ⟨reply, hr, fun a env' rest h => Nat.le_trans (hn a env' rest h) hm⟩

theorem Returns.pRaw {p : ρ → List τ → Consumed (Reply ρ τ ε α)}
    (h : ∀ env a env' rest, forceConsumed (p env toks) = .ok a env' rest → rest.length ≤ n) :
    Returns (Hcc.pRaw p) toks n :=
  fun env => ⟨p env toks, rfl, h env⟩

theorem Returns.pure {a : α} (h : toks.length ≤ n) : Returns (Pure.pure a : P ρ τ ε α) toks n := by
  refine fun env => ⟨_, rfl, fun _ _ _ hr => ?_⟩
  cases hr
  exact h

theorem Returns.fail {e : ε} : Returns (pFail e : P ρ τ ε α) toks n :=
  .pRaw nofun

theorem Returns.pEnv (h : toks.length ≤ n) : Returns (Hcc.pEnv : P ρ τ ε ρ) toks n := by
  refine fun env => ⟨_, rfl, fun _ _ _ hr => ?_⟩
  cases hr
  exact h

theorem Returns.skip {e : ε} (h : toks.length ≤ n + 1) :
    Returns (pSkip e : P ρ τ ε Unit) toks n := by
  apply Returns.pRaw
  cases toks
  case nil  => exact nofun
  case cons =>
    intro _ _ _ _ hr
    cases hr
    exact Nat.le_of_succ_le_succ h

theorem Returns.take {e : ε} (h : toks.length ≤ n + 1) :
    Returns (pTake e : P ρ τ ε τ) toks n := by
  apply Returns.pRaw
  cases toks
  case nil  => exact nofun
  case cons =>
    intro _ _ _ _ hr
    cases hr
    exact Nat.le_of_succ_le_succ h

theorem Returns.bind (hp : Returns p toks n) (hf : ∀ a rest, rest.length ≤ n → Returns (f a) rest m) :
    Returns (p >>= f) toks m := by
  intro env
  obtain ⟨reply, hr, hn⟩ := hp env
  simp only [Bind.bind, P.bind, hr, Option.bind_some]
  cases reply <;> rename_i r <;> cases r
  case consumed.error | unconsumed.error => exact ⟨_, rfl, by simp [forceConsumed]⟩
  case unconsumed.ok a env' rest => exact hf a rest (hn a env' rest rfl) env'
  case consumed.ok a env' rest =>
    obtain ⟨reply, hr, hm⟩ := hf a rest (hn a env' rest rfl) env'
    exact ⟨.consumed (forceConsumed reply), by simp only [hr, Option.map_eq_map, Option.map_some], hm⟩

-- Peeking does not change the tokens.
theorem Returns.peek_bind {f : Option τ → P ρ τ ε β} (h : Returns (f toks.head?) toks m) :
    Returns (pPeekMaybe >>= f) toks m :=
  h

theorem Returns.parseRest (h : Returns p toks n) (env : ρ) :
    ∃ result, Hcc.parseRest p env toks = some result :=
  have ⟨_, hr, _⟩ := h env
  ⟨_, by rw [Hcc.parseRest, hr, Option.map_some]⟩

end Hcc
