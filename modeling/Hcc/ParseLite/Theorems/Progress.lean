import Hcc.ParseLite.Theorems.Returns

namespace Hcc

variable {ρ τ ε α β : Type} {p q : P ρ τ ε α} {f : α → P ρ τ ε β} {toks : List τ} {k j : Nat}

-- On at most `k` tokens, the parser does not run out of fuel and does not lengthen its input.
def Halts (k : Nat) (p : P ρ τ ε α) : Prop :=
  ∀ toks : List τ, toks.length ≤ k → Returns p toks toks.length

-- If the parser succeeds, it also consumes at least one token.
def Advances (k : Nat) (p : P ρ τ ε α) : Prop :=
  ∀ env (toks : List τ), toks.length ≤ k → ∃ reply, p env toks = some reply ∧
    ∀ a env' rest, forceConsumed reply = .ok a env' rest → rest.length < toks.length

theorem Advances.halts (h : Advances k p) : Halts k p :=
  fun toks hk env => have ⟨reply, hr, hn⟩ := h env toks hk
    ⟨reply, hr, fun a env' rest h => Nat.le_of_lt (hn a env' rest h)⟩

theorem Advances.returns (h : Advances k p) (hk : toks.length ≤ k) :
    Returns p toks (toks.length - 1) :=
  fun env => have ⟨reply, hr, hn⟩ := h env toks hk
    ⟨reply, hr, fun a env' rest h => Nat.le_sub_one_of_lt (hn a env' rest h)⟩

theorem Halts.mono (h : Halts k p) (hj : j ≤ k) : Halts j p :=
  fun toks hk => h toks (Nat.le_trans hk hj)

theorem Advances.mono (h : Advances k p) (hj : j ≤ k) : Advances j p :=
  fun env toks hk => h env toks (Nat.le_trans hk hj)

theorem Halts.pure {a : α} : Halts k (Pure.pure a : P ρ τ ε α) :=
  fun _ _ => .pure le_rfl

theorem Advances.fail {e : ε} : Advances k (pFail e : P ρ τ ε α) :=
  fun _ _ _ => ⟨_, rfl, nofun⟩

theorem Halts.bind (hp : Halts k p) (hf : ∀ a, Halts k (f a)) : Halts k (p >>= f) :=
  fun toks hk => (hp toks hk).bind fun a rest hr =>
    ((hf a) rest (Nat.le_trans hr hk)).mono hr

-- The rest of a parser that starts with a token has less than `k` tokens.
theorem Advances.bind (hp : Advances k p) (hf : ∀ a j, j < k → Halts j (f a)) :
    Advances k (p >>= f) := by
  intro env toks hk
  obtain ⟨reply, hr, hn⟩ := hp env toks hk
  simp only [Bind.bind, P.bind, hr, Option.bind_some]
  cases reply <;> rename_i r <;> cases r
  case consumed.error | unconsumed.error => exact ⟨_, rfl, by simp [forceConsumed]⟩
  case unconsumed.ok a env' rest =>
    have hl := hn a env' rest rfl
    obtain ⟨reply, hr, hm⟩ := hf a rest.length (by omega) rest le_rfl env'
    exact ⟨reply, hr, fun b e t h => Nat.lt_of_le_of_lt (hm b e t h) hl⟩
  case consumed.ok a env' rest =>
    have hl := hn a env' rest rfl
    obtain ⟨reply, hr, hm⟩ := hf a rest.length (by omega) rest le_rfl env'
    exact ⟨.consumed (forceConsumed reply), by simp only [hr, Option.map_eq_map, Option.map_some],
      fun b e t h => Nat.lt_of_le_of_lt (hm b e t h) hl⟩

theorem Halts.bind_advances (hp : Halts k p) (hf : ∀ a, Advances k (f a)) :
    Advances k (p >>= f) := by
  intro env toks hk
  obtain ⟨reply, hr, hn⟩ := hp toks hk env
  simp only [Bind.bind, P.bind, hr, Option.bind_some]
  cases reply <;> rename_i r <;> cases r
  case consumed.error | unconsumed.error => exact ⟨_, rfl, by simp [forceConsumed]⟩
  case unconsumed.ok a env' rest =>
    have hl := hn a env' rest rfl
    obtain ⟨reply, hr, hm⟩ := hf a env' rest (Nat.le_trans hl hk)
    exact ⟨reply, hr, fun b e t h => Nat.lt_of_lt_of_le (hm b e t h) hl⟩
  case consumed.ok a env' rest =>
    have hl := hn a env' rest rfl
    obtain ⟨reply, hr, hm⟩ := hf a env' rest (Nat.le_trans hl hk)
    exact ⟨.consumed (forceConsumed reply), by simp only [hr, Option.map_eq_map, Option.map_some],
      fun b e t h => Nat.lt_of_lt_of_le (hm b e t h) hl⟩

theorem Halts.pEnv : Halts k (pEnv : P ρ τ ε ρ) :=
  fun _ _ => .pEnv le_rfl

theorem Halts.pSetEnv {env : ρ} : Halts k (pSetEnv env : P ρ τ ε Unit) := by
  refine fun toks _ _ => ⟨_, rfl, fun _ _ _ hr => ?_⟩
  cases hr
  exact le_rfl

theorem Halts.peek : Halts k (pPeekMaybe : P ρ τ ε (Option τ)) := by
  refine fun toks _ _ => ⟨_, rfl, fun _ _ _ hr => ?_⟩
  cases hr
  exact le_rfl

theorem Advances.skip {e : ε} : Advances k (pSkip e : P ρ τ ε Unit) := by
  intro env toks hk
  refine ⟨_, rfl, ?_⟩
  cases toks
  case nil  => exact nofun
  case cons =>
    intro _ _ _ hr
    cases hr
    exact Nat.lt_succ_self _

theorem Halts.local {enter : ρ → ρ} {leave : ρ → ρ → ρ} (h : Halts k p) :
    Halts k (pLocalEnv enter leave p) := by
  intro toks hk env
  have ⟨reply, hr, hn⟩ := h toks hk (enter env)
  refine ⟨_, by simp only [pLocalEnv, hr, Option.map_some]; rfl, fun a env' rest h => ?_⟩
  cases reply <;> rename_i r <;> cases r <;> cases h <;> exact hn _ _ _ rfl

theorem Advances.local {enter : ρ → ρ} {leave : ρ → ρ → ρ} (h : Advances k p) :
    Advances k (pLocalEnv enter leave p) := by
  intro env toks hk
  have ⟨reply, hr, hn⟩ := h (enter env) toks hk
  refine ⟨_, by simp only [pLocalEnv, hr, Option.map_some]; rfl, fun a env' rest h => ?_⟩
  cases reply <;> rename_i r <;> cases r <;> cases h <;> exact hn _ _ _ rfl

theorem Halts.try (h : Halts k p) : Halts k (pTry p) := by
  intro toks hk env
  have ⟨reply, hr, hn⟩ := h toks hk env
  refine ⟨_, by simp only [pTry, hr, Option.map_some]; rfl, fun a env' rest h => ?_⟩
  cases reply <;> rename_i r <;> cases r <;> cases h <;> exact hn _ _ _ rfl

theorem Advances.try (h : Advances k p) : Advances k (pTry p) := by
  intro env toks hk
  have ⟨reply, hr, hn⟩ := h env toks hk
  refine ⟨_, by simp only [pTry, hr, Option.map_some]; rfl, fun a env' rest h => ?_⟩
  cases reply <;> rename_i r <;> cases r <;> cases h <;> exact hn _ _ _ rfl

-- A parser that is optional consumes a token if its result is used.
theorem Halts.optional (h : Halts k p) : Halts k (pOptional p) := by
  intro toks hk env
  have ⟨reply, hr, hn⟩ := h toks hk env
  refine ⟨_, by simp only [pOptional, hr, Option.map_some]; rfl, fun a env' rest h => ?_⟩
  cases reply <;> rename_i r <;> cases r <;> cases h <;> first | exact hn _ _ _ rfl | exact le_rfl

theorem Halts.optional_bind {f : Option α → P ρ τ ε β} (h : Advances k p)
    (hs : ∀ a j, j < k → Halts j (f (some a))) (hn : Halts k (f none)) :
    Halts k (pOptional p >>= f) := by
  intro toks hk env
  obtain ⟨reply, hr, hl⟩ := h env toks hk
  simp only [Bind.bind, P.bind, pOptional, hr, Option.map_some, Option.bind_some]
  cases reply <;> rename_i r <;> cases r
  case consumed.error => exact ⟨_, rfl, by simp [forceConsumed]⟩
  case unconsumed.error => exact hn toks hk env
  case unconsumed.ok a env' rest =>
    have hl := hl a env' rest rfl
    exact ((hs a rest.length (by omega)) rest le_rfl).mono (by omega) env'
  case consumed.ok a env' rest =>
    have hl := hl a env' rest rfl
    obtain ⟨reply, hr, hm⟩ := ((hs a rest.length (by omega)) rest le_rfl).mono (Nat.le_of_lt hl) env'
    exact ⟨.consumed (forceConsumed reply), by simp only [hr, Option.map_eq_map, Option.map_some], hm⟩

theorem Advances.optional_bind {f : Option α → P ρ τ ε β} (h : Advances k p)
    (hs : ∀ a j, j < k → Halts j (f (some a))) (hn : Advances k (f none)) :
    Advances k (pOptional p >>= f) := by
  intro env toks hk
  obtain ⟨reply, hr, hl⟩ := h env toks hk
  simp only [Bind.bind, P.bind, pOptional, hr, Option.map_some, Option.bind_some]
  cases reply <;> rename_i r <;> cases r
  case consumed.error => exact ⟨_, rfl, by simp [forceConsumed]⟩
  case unconsumed.error => exact hn env toks hk
  case unconsumed.ok a env' rest =>
    have hl := hl a env' rest rfl
    obtain ⟨reply, hr, hm⟩ := (hs a rest.length (by omega)) rest le_rfl env'
    exact ⟨reply, hr, fun b e t h => Nat.lt_of_le_of_lt (hm b e t h) hl⟩
  case consumed.ok a env' rest =>
    have hl := hl a env' rest rfl
    obtain ⟨reply, hr, hm⟩ := (hs a rest.length (by omega)) rest le_rfl env'
    exact ⟨.consumed (forceConsumed reply), by simp only [hr, Option.map_eq_map, Option.map_some],
      fun b e t h => Nat.lt_of_le_of_lt (hm b e t h) hl⟩

-- A repetition ends if every element consumes a token.
theorem Halts.many {fuel : Nat} (h : Advances k p) (hf : k < fuel) : Halts k (pMany p fuel) := by
  induction fuel generalizing k
  case zero => contradiction
  case succ fuel hi =>
    rw [pMany]
    refine .optional_bind h (fun a j hj => ?_) .pure
    exact .bind (hi (h.mono (Nat.le_of_lt hj)) (by omega)) fun _ => .pure

theorem Halts.manyUntil {stop : P ρ τ ε Bool} {fuel : Nat} (hs : Halts k stop) (h : Advances k p)
    (hf : k < fuel) : Halts k (pManyUntil stop p fuel) := by
  induction fuel generalizing k
  case zero => contradiction
  case succ fuel hi =>
    rw [pManyUntil]
    refine .bind hs fun b => ?_
    cases b
    case true  => exact .pure
    case false =>
      refine Advances.halts <| .bind h fun a j hj => ?_
      have hj := Nat.le_of_lt hj
      exact .bind (hi (hs.mono hj) (h.mono hj) (by omega)) fun _ => .pure

end Hcc
