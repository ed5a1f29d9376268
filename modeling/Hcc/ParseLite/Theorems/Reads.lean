import Hcc.ParseLite.Basic
import Mathlib.Data.Nat.Basic

namespace Hcc

section Yields

variable {ρ τ ε α β : Type} {p : P ρ τ ε α} {f : α → P ρ τ ε β} {env env₁ env₂ : ρ}
variable {toks toks₁ toks₂ : List τ} {a : α} {b : β}

-- The parser succeeds with `a`, and it leaves the tokens `toks₁`.
def Yields (p : P ρ τ ε α) (env : ρ) (toks : List τ) (a : α) (env₁ : ρ) (toks₁ : List τ) : Prop :=
  (p env toks).map forceConsumed = some (.ok a env₁ toks₁)

theorem Yields.pure : Yields (pure a : P ρ τ ε α) env toks a env toks :=
  rfl

theorem Yields.pEnv : Yields (Hcc.pEnv : P ρ τ ε ρ) env toks env env toks :=
  rfl

theorem Yields.peek : Yields (pPeekMaybe : P ρ τ ε (Option τ)) env toks toks.head? env toks :=
  rfl

theorem Yields.skip {e : ε} {tok : τ} : Yields (pSkip e : P ρ τ ε Unit) env (tok :: toks) () env toks :=
  rfl

theorem Yields.bind (hp : Yields p env toks a env₁ toks₁) (hf : Yields (f a) env₁ toks₁ b env₂ toks₂) :
    Yields (p >>= f) env toks b env₂ toks₂ := by
  have ⟨reply, hr, hp⟩ := Option.map_eq_some_iff.mp hp
  have ⟨reply', hr', hf⟩ := Option.map_eq_some_iff.mp hf
  cases reply <;> obtain rfl := hp
  case consumed   => simpa [Yields, Bind.bind, P.bind, hr, hr', forceConsumed] using hf
  case unconsumed => simp [Yields, Bind.bind, P.bind, hr, hr', hf]

theorem Yields.optional (hp : Yields p env toks a env₁ toks₁) :
    Yields (pOptional p) env toks (some a) env₁ toks₁ := by
  have ⟨reply, hr, hp⟩ := Option.map_eq_some_iff.mp hp
  cases reply <;> obtain rfl := hp <;> simp [Yields, pOptional, hr, forceConsumed]

theorem bind_rejects {e : ε} (hp : p env toks = some (.unconsumed (.error e))) :
    (p >>= f) env toks = some (.unconsumed (.error e)) := by
  simp [Bind.bind, P.bind, hp]

-- A parser that fails before it consumes a token is left out.
theorem Yields.optional_none {e : ε} (hp : p env toks = some (.unconsumed (.error e))) :
    Yields (pOptional p) env toks none env toks := by
  simp [Yields, pOptional, hp, forceConsumed]

theorem yields_try_iff : Yields (pTry p) env toks a env₁ toks₁ ↔ Yields p env toks a env₁ toks₁ := by
  rcases hp : p env toks with _ | ⟨_ | _⟩ | ⟨_ | _⟩ <;> simp [Yields, pTry, hp, forceConsumed]

theorem yields_optional_iff :
    Yields (pOptional p) env toks (some a) env₁ toks₁ ↔ Yields p env toks a env₁ toks₁ := by
  rcases hp : p env toks with _ | ⟨_ | _⟩ | ⟨_ | _⟩ <;> simp [Yields, pOptional, hp, forceConsumed]

theorem Yields.unique {a' : α} (h : Yields p env toks a env₁ toks₁)
    (h' : Yields p env toks a' env₂ toks₂) : a = a' ∧ env₁ = env₂ ∧ toks₁ = toks₂ := by
  have h := h.symm.trans h'
  simpa using h

-- Once a parser has yielded, the rest of the run is up to its continuation.
theorem Yields.bind_iff (hp : Yields p env toks a env₁ toks₁) :
    Yields (p >>= f) env toks b env₂ toks₂ ↔ Yields (f a) env₁ toks₁ b env₂ toks₂ := by
  refine ⟨fun h => ?_, hp.bind⟩
  have ⟨reply, hr, hp⟩ := Option.map_eq_some_iff.mp hp
  cases reply <;> obtain rfl := hp
  case consumed =>
    simp only [Yields, Bind.bind, P.bind, hr, Option.bind_some] at h
    cases hf : f a env₁ toks₁ <;> simp_all [Yields, forceConsumed]
  case unconsumed => simpa [Yields, Bind.bind, P.bind, hr] using h

theorem Yields.exists_of_bind (h : Yields (p >>= f) env toks b env₂ toks₂) :
    ∃ a env₁ toks₁, Yields p env toks a env₁ toks₁ ∧ Yields (f a) env₁ toks₁ b env₂ toks₂ := by
  cases hp : p env toks
  case none => simp [Yields, Bind.bind, P.bind, hp] at h
  case some reply =>
    have hy : ∀ r, forceConsumed reply = r → (p env toks).map forceConsumed = some r := by simp [hp]
    cases hr : forceConsumed reply
    case ok a env₁ toks₁ => exact ⟨a, env₁, toks₁, hy _ hr, (bind_iff <| hy _ hr).mp h⟩
    case error e =>
      cases reply <;> obtain rfl := hr <;> simp [Yields, Bind.bind, P.bind, hp, forceConsumed] at h

theorem yields_scope_iff {enter : ρ → ρ} :
    Yields (pLocalEnv enter (fun outer _ => outer) p) env toks a env₁ toks₁ ↔
      env₁ = env ∧ ∃ inner, Yields p (enter env) toks a inner toks₁ := by
  cases hp : p (enter env) toks
  case none => simp [Yields, pLocalEnv, hp]
  case some reply =>
    cases reply <;> rename_i r <;> cases r <;>
      simp [Yields, pLocalEnv, hp, forceConsumed, mapConsumed, eq_comm, and_comm, and_left_comm]

-- A repetition up to a token that ends it.
theorem Yields.manyUntil_nil {stop : P ρ τ ε Bool} {fuel : Nat}
    (h : Yields stop env toks true env₁ toks₁) :
    Yields (pManyUntil stop p (fuel + 1)) env toks [] env₁ toks₁ :=
  .bind h .pure

theorem Yields.manyUntil_cons {stop : P ρ τ ε Bool} {fuel : Nat} {as : List α}
    (h : Yields stop env toks false env toks) (hp : Yields p env toks a env₁ toks₁)
    (hs : Yields (pManyUntil stop p fuel) env₁ toks₁ as env₂ toks₂) :
    Yields (pManyUntil stop p (fuel + 1)) env toks (a :: as) env₂ toks₂ :=
  .bind h <| .bind hp <| .bind hs .pure

end Yields

section Reads

variable {ρ τ ε α β : Type} {p : Nat → Nat → P ρ τ ε α} {f : Nat → Nat → α → P ρ τ ε β}
variable {env env₁ env₂ : ρ} {toks toks₁ toks₂ : List τ} {a : α} {b : β}

-- The parser yields `a` if there is enough fuel for its calls and for its loops.
def Reads (p : Nat → Nat → P ρ τ ε α) (env : ρ) (toks : List τ) (a : α) (env₁ : ρ)
    (toks₁ : List τ) : Prop :=
  ∃ m, ∀ n ≥ m, ∀ fuel ≥ m, Yields (p n fuel) env toks a env₁ toks₁

theorem Reads.of_yields (h : ∀ n fuel, Yields (p n fuel) env toks a env₁ toks₁) :
    Reads p env toks a env₁ toks₁ :=
  ⟨0, fun n _ fuel _ => h n fuel⟩

theorem Reads.pure : Reads (fun _ _ => (Pure.pure a : P ρ τ ε α)) env toks a env toks :=
  .of_yields fun _ _ => .pure

theorem Reads.bind (hp : Reads p env toks a env₁ toks₁)
    (hf : Reads (fun n fuel => f n fuel a) env₁ toks₁ b env₂ toks₂) :
    Reads (fun n fuel => p n fuel >>= f n fuel) env toks b env₂ toks₂ :=
  have ⟨m₁, h₁⟩ := hp
  have ⟨m₂, h₂⟩ := hf
  ⟨max m₁ m₂, fun n hn fuel hl => .bind (h₁ n (by omega) fuel (by omega)) (h₂ n (by omega) fuel (by omega))⟩

-- A parser that takes no steps is followed by another one.
theorem Reads.yields_bind {q : P ρ τ ε α} (hp : Yields q env toks a env₁ toks₁)
    (hf : Reads (fun n fuel => f n fuel a) env₁ toks₁ b env₂ toks₂) :
    Reads (fun n fuel => q >>= f n fuel) env toks b env₂ toks₂ :=
  .bind (p := fun _ _ => q) (.of_yields fun _ _ => hp) hf

theorem Reads.diag (h : Reads p env toks a env₁ toks₁) :
    Reads (fun n _ => p n n) env toks a env₁ toks₁ :=
  have ⟨m, h⟩ := h
  ⟨m, fun n hn _ _ => h n hn n hn⟩

theorem Reads.loop (h : Reads (fun n fuel => p n (fuel + 1)) env toks a env₁ toks₁) :
    Reads p env toks a env₁ toks₁ := by
  have ⟨m, h⟩ := h
  refine ⟨m + 1, fun n hn fuel hl => ?_⟩
  obtain ⟨fuel, rfl⟩ := Nat.exists_eq_succ_of_ne_zero (show fuel ≠ 0 by omega)
  exact h n (by omega) fuel (by omega)

theorem Reads.call (h : Reads (fun n fuel => p (n + 1) fuel) env toks a env₁ toks₁) :
    Reads p env toks a env₁ toks₁ := by
  have ⟨m, h⟩ := h
  refine ⟨m + 1, fun n hn fuel hl => ?_⟩
  obtain ⟨n, rfl⟩ := Nat.exists_eq_succ_of_ne_zero (show n ≠ 0 by omega)
  exact h n (by omega) fuel (by omega)

theorem Reads.congr {q : Nat → Nat → P ρ τ ε α} (h : Reads p env toks a env₁ toks₁)
    (hp : ∀ n fuel, p n fuel env toks = q n fuel env toks) : Reads q env toks a env₁ toks₁ :=
  have ⟨m, h⟩ := h
  ⟨m, fun n hn fuel hl => by rw [Yields, ←hp]; exact h n hn fuel hl⟩

-- A repetition reads its elements, and ends where its element fails without consuming a token.
theorem Reads.many_nil {e : ε} (h : ∀ n, p n n env toks = some (.unconsumed (.error e))) :
    Reads (fun n fuel => pMany (p n n) fuel) env toks [] env toks :=
  .loop <| .of_yields fun n _ => .bind (.optional_none <| h n) .pure

theorem Reads.many_cons {as : List α} (h : Reads (fun n _ => p n n) env toks a env₁ toks₁)
    (hs : Reads (fun n fuel => pMany (p n n) fuel) env₁ toks₁ as env₂ toks₂) :
    Reads (fun n fuel => pMany (p n n) fuel) env toks (a :: as) env₂ toks₂ := by
  refine .loop ?_
  have ⟨m, h⟩ := h
  refine .bind (p := fun n _ => pOptional (p n n)) ⟨m, fun n hn fuel hl => .optional <| h n hn fuel hl⟩ ?_
  exact .bind hs .pure

end Reads
end Hcc
