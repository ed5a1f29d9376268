import Hcc.Library.Fuel

-- Computations with a state, that are bounded by fuel and that can fail.
abbrev Stateful (σ ε : Type) := StateT σ (Fueled ε)

namespace Stateful

open Fueled

variable {σ τ ε α β : Type} {m : Stateful σ ε α} {f : α → Stateful σ ε β} {s s' s'' : σ}

def outOfFuel : Stateful σ ε α :=
  fun _ => Fueled.outOfFuel

-- A computation that starts in `s` succeeds in `s'`, with result `a`.
def Run (m : Stateful σ ε α) (s : σ) (a : α) (s' : σ) : Prop :=
  m s = done (.ok (a, s'))

@[simp]
theorem run_pure_iff : Run (pure a : Stateful σ ε α) s b s' ↔ a = b ∧ s = s' := by
  exact done_inj.trans <| by simp

@[simp]
theorem run_bind_iff : Run (m >>= f) s b s'' ↔ ∃ a s', Run m s a s' ∧ Run (f a) s' b s'' := by
  simp only [Run, bind, StateT.bind]
  exact bind_eq_done_ok.trans <| by simp [Prod.exists]

theorem apply_bind_eq_done {r : Except ε (β × σ)} :
    (m >>= f) s = done r ↔ (∃ e, m s = done (.error e) ∧ r = .error e) ∨
      ∃ a s', m s = done (.ok (a, s')) ∧ f a s' = done r := by
  simp only [bind, StateT.bind]
  exact bind_eq_done.trans <| by simp [Prod.exists]

@[simp]
theorem not_run_throw {e : ε} : ¬Run (throw e : Stateful σ ε α) s a s' :=
  fun h => nomatch h

@[simp]
theorem not_run_outOfFuel : ¬Run (outOfFuel : Stateful σ ε α) s a s' :=
  fun h => nomatch h

@[simp]
theorem run_get_iff : Run (get : Stateful σ ε σ) s a s' ↔ s = a ∧ s = s' := by
  exact done_inj.trans <| by simp

@[simp]
theorem run_modify_iff {g : σ → σ} : Run (modify g : Stateful σ ε Unit) s a s' ↔ g s = s' := by
  exact done_inj.trans <| by simp

@[simp]
theorem run_set_iff : Run (set s' : Stateful σ ε PUnit) s a s'' ↔ s' = s'' :=
  done_inj.trans <| by simp

theorem Run.unique (h₁ : Run m s a s') (h₂ : Run m s b s'') : a = b ∧ s' = s'' := by
  simpa [Run, Prod.ext_iff] using h₁.symm.trans h₂

-- The decision that a computation succeeds with a result that satisfies a predicate.
def yields (m : Stateful σ ε α) (s : σ) (p : α → Bool) : Bool :=
  match m s with
  | some (.ok (a, _)) => p a
  | _                 => false

theorem exists_run_of_yields {p : α → Bool} (h : yields m s p) : ∃ a s', Run m s a s' ∧ p a := by
  unfold yields at h
  split at h
  case h_1 a s' hr => exact ⟨a, s', hr, h⟩
  case h_2         => contradiction

-- A computation that is run in a state derived from the current one.
def within (enter : σ → τ) (leave : σ → τ → σ) (m : Stateful τ ε α) : Stateful σ ε α :=
  fun s => do
    let (a, t) ← m (enter s)
    return (a, leave s t)

@[simp]
theorem run_within_iff {enter : σ → τ} {leave : σ → τ → σ} {m : Stateful τ ε α} :
    Run (within enter leave m) s a s' ↔ ∃ t, Run m (enter s) a t ∧ leave s t = s' := by
  refine bind_eq_done_ok.trans ⟨?_, ?_⟩
  · rintro ⟨⟨b, t⟩, hm, hr⟩
    obtain ⟨rfl, rfl⟩ := Prod.mk.inj <| Except.ok.inj <| done_inj.mp hr
    exact ⟨t, hm, rfl⟩
  · rintro ⟨t, hm, rfl⟩
    exact ⟨_, hm, rfl⟩

end Stateful
