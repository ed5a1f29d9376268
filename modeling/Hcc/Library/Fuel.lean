import Mathlib.Init

theorem Except.bind_eq_ok {x : Except ε α} {f : α → Except ε β} :
    (x >>= f) = .ok b ↔ ∃ a, x = .ok a ∧ f a = .ok b := by
  cases x
  case error => exact ⟨nofun, nofun⟩
  case ok a => exact ⟨fun h => ⟨a, rfl, h⟩, fun ⟨_, ha, h⟩ => Except.ok.inj ha ▸ h⟩

-- Computations that are bounded by fuel, and that can fail. `none` means that the fuel did not
-- suffice.
abbrev Fueled (ε : Type) := ExceptT ε Option

namespace Fueled

variable {ε α β : Type}

def outOfFuel : Fueled ε α :=
  ExceptT.mk none

def done (r : Except ε α) : Fueled ε α :=
  ExceptT.mk (some r)

@[simp]
theorem pure_eq_done : (pure a : Fueled ε α) = done (.ok a) := rfl

@[simp]
theorem throw_eq_done : (throw e : Fueled ε α) = done (.error e) := rfl

@[simp]
theorem done_ok_bind {f : α → Fueled ε β} : done (.ok a) >>= f = f a := rfl

@[simp]
theorem done_error_bind {f : α → Fueled ε β} : done (.error e) >>= f = done (.error e) := rfl

@[simp]
theorem outOfFuel_bind {f : α → Fueled ε β} : outOfFuel >>= f = outOfFuel := rfl

@[simp]
theorem done_inj {r s : Except ε α} : done r = done s ↔ r = s where
  mp h  := Option.some.inj h
  mpr h := h ▸ rfl

@[simp]
theorem outOfFuel_ne_done {r : Except ε α} : outOfFuel ≠ done r :=
  nofun

@[simp]
theorem liftM_eq_done (r : Except ε α) : (liftM r : Fueled ε α) = done r := by
  cases r <;> rfl

theorem cases (x : Fueled ε α) :
    x = outOfFuel ∨ (∃ e, x = done (.error e)) ∨ ∃ a, x = done (.ok a) := by
  rcases x with _ | _ | _
  · exact .inl rfl
  · exact .inr <| .inl ⟨_, rfl⟩
  · exact .inr <| .inr ⟨_, rfl⟩

-- The results of the sequential composition of two computations.
theorem bind_eq_done_ok {x : Fueled ε α} {f : α → Fueled ε β} :
    x >>= f = done (.ok b) ↔ ∃ a, x = done (.ok a) ∧ f a = done (.ok b) := by
  rcases cases x with rfl | ⟨e, rfl⟩ | ⟨a, rfl⟩ <;> simp

-- A sequence that has ended, with an error of the first computation or after both.
theorem bind_eq_done {x : Fueled ε α} {f : α → Fueled ε β} {r : Except ε β} :
    x >>= f = done r ↔ (∃ e, x = done (.error e) ∧ r = .error e) ∨ ∃ a, x = done (.ok a) ∧ f a = done r := by
  rcases cases x with rfl | ⟨e, rfl⟩ | ⟨a, rfl⟩
  · simp [outOfFuel_ne_done]
  · simp [@eq_comm _ r]
  · simp

def IsDone (x : Fueled ε α) : Prop :=
  ∃ r, x = done r

@[simp]
theorem IsDone.done {r : Except ε α} : IsDone (done r) :=
  ⟨r, rfl⟩

theorem IsDone.liftM {r : Except ε α} : IsDone (liftM r : Fueled ε α) :=
  ⟨r, liftM_eq_done r⟩

theorem IsDone.bind {x : Fueled ε α} {f : α → Fueled ε β} (hx : IsDone x) (hf : ∀ a, IsDone (f a)) :
    IsDone (x >>= f) := by
  rcases hx with ⟨_ | a, rfl⟩
  · exact .done
  · exact hf a

-- With enough fuel, the result is `r`.
def Converges (x : Nat → Fueled ε α) (r : Except ε α) : Prop :=
  ∃ n, ∀ m ≥ n, x m = done r

-- With enough fuel, the result is `a` if `p` holds, and an error otherwise.
def Decides (x : Nat → Fueled ε α) (p : Prop) (a : α) : Prop :=
  (p → Converges x (.ok a)) ∧ (¬p → ∃ e, Converges x (.error e))

def Terminates (x : Nat → Fueled ε α) : Prop :=
  ∃ r, Converges x r

theorem Converges.const (h : x = done r) : Converges (fun _ => x) r :=
  ⟨0, fun _ _ => h⟩

theorem Terminates.done : Terminates fun _ => done (r : Except ε α) :=
  ⟨r, .const rfl⟩

theorem Converges.of_succ {x : Nat → Fueled ε α} (h : Converges (fun n => x (n + 1)) r) :
    Converges x r := by
  have ⟨n, h⟩ := h
  refine ⟨n + 1, fun m hm => ?_⟩
  cases m
  case zero      => contradiction
  case succ m => exact h m (by omega)

theorem Converges.unique {x : Nat → Fueled ε α} (h₁ : Converges x r₁) (h₂ : Converges x r₂) :
    r₁ = r₂ := by
  have ⟨n₁, h₁⟩ := h₁
  have ⟨n₂, h₂⟩ := h₂
  exact done_inj.mp <| (h₁ (max n₁ n₂) (by omega)).symm.trans <| h₂ _ (by omega)

theorem Converges.bind {x : Nat → Fueled ε α} {f : Nat → α → Fueled ε β}
    (h₁ : Converges x (.ok a)) (h₂ : Converges (f · a) r) : Converges (fun n => x n >>= f n) r := by
  have ⟨n₁, h₁⟩ := h₁
  have ⟨n₂, h₂⟩ := h₂
  exists max n₁ n₂
  intro m hm
  simp only [h₁ m (by omega), done_ok_bind]
  exact h₂ m (by omega)

theorem Converges.bind_error {x : Nat → Fueled ε α} {f : Nat → α → Fueled ε β}
    (h : Converges x (.error e)) : Converges (fun n => x n >>= f n) (.error e) := by
  have ⟨n, h⟩ := h
  exact ⟨n, fun m hm => by simp only [h m hm, done_error_bind]⟩

-- A sequential composition terminates if its second part terminates for every result of its first.
theorem Terminates.bind {x : Nat → Fueled ε α} {f : Nat → α → Fueled ε β}
    (h₁ : Terminates x) (h₂ : ∀ a, Converges x (.ok a) → Terminates (f · a)) :
    Terminates fun n => x n >>= f n := by
  rcases h₁ with ⟨e | a, h₁⟩
  · exact ⟨_, h₁.bind_error⟩
  · have ⟨r, h₂⟩ := h₂ a h₁
    exact ⟨r, h₁.bind h₂⟩

theorem Terminates.of_succ {x : Nat → Fueled ε α} (h : Terminates fun n => x (n + 1)) :
    Terminates x :=
  h.imp fun _ h => h.of_succ

theorem Terminates.of_stable {x : Nat → Fueled ε α} (h : IsDone (x n)) (hs : ∀ m ≥ n, x m = x n) :
    Terminates x := by
  have ⟨r, h⟩ := h
  exact ⟨r, n, fun m hm => (hs m hm).trans h⟩

-- Finitely many terminating computations terminate with a common amount of fuel.
theorem exists_fuel {l : List ι} {x : Nat → ι → Fueled ε α} (h : ∀ i ∈ l, Terminates (x · i)) :
    ∃ n, ∀ i ∈ l, IsDone (x n i) ∧ ∀ m ≥ n, x m i = x n i := by
  induction l
  case nil => exact ⟨0, nofun⟩
  case cons i l hi =>
    have ⟨r, n₁, h₁⟩ := h i (.head _)
    have ⟨n₂, h₂⟩ := hi fun j hj => h j (.tail _ hj)
    refine ⟨max n₁ n₂, fun j hj => ?_⟩
    cases hj
    case head =>
      have h := h₁ (max n₁ n₂) (by omega)
      exact ⟨⟨r, h⟩, fun m hm => (h₁ m (by omega)).trans h.symm⟩
    case tail hj =>
      have ⟨hd, hs⟩ := h₂ j hj
      have h := hs (max n₁ n₂) (by omega)
      exact ⟨h ▸ hd, fun m hm => (hs m (by omega)).trans h.symm⟩

section Decides

variable {x : Nat → Fueled ε α} {f : Nat → α → Fueled ε β} {a : α} {b : β} {p q : Prop}

theorem Decides.ok : Decides (fun _ => (Fueled.done (.ok a) : Fueled ε α)) True a :=
  ⟨fun _ => .const rfl, fun h => absurd trivial h⟩

theorem Decides.error (h : ¬p) : Decides (fun _ => (Fueled.done (.error e) : Fueled ε α)) p a :=
  ⟨fun hp => absurd hp h, fun _ => ⟨e, .const rfl⟩⟩

theorem Decides.congr (h : Decides x p a) (hp : p ↔ q) : Decides x q a :=
  propext hp ▸ h

theorem Decides.of_succ (h : Decides (fun n => x (n + 1)) p a) : Decides x p a :=
  ⟨fun hp => (h.left hp).of_succ, fun hp => (h.right hp).imp fun _ h => h.of_succ⟩

theorem Decides.bind (hx : Decides x p a) (hf : Decides (f · a) q b) :
    Decides (fun n => x n >>= f n) (p ∧ q) b := by
  constructor
  · exact fun h => (hx.left h.left).bind (hf.left h.right)
  · intro h
    by_cases hp : p
    case pos =>
      have ⟨e, hq⟩ := hf.right fun hq => h ⟨hp, hq⟩
      exact ⟨e, (hx.left hp).bind hq⟩
    case neg => exact (hx.right hp).imp fun _ h => h.bind_error

theorem Decides.done_bind {r : Except ε α} (h : r = .ok a) (hf : Decides (f · a) q b) :
    Decides (fun n => Fueled.done r >>= f n) q b :=
  h ▸ hf

theorem Decides.map {g : α → β} (h : Decides x p a) : Decides (fun n => g <$> x n) p (g a) :=
  (h.bind (f := fun _ a => pure (g a)) .ok).congr (by simp)

-- A decided computation results in `c` if and only if it succeeds, and its result is `c`.
theorem Decides.converges_iff (h : Decides x p a) : Converges x (.ok c) ↔ p ∧ a = c := by
  by_cases hp : p
  case pos =>
    have hx := h.left hp
    exact ⟨fun hc => ⟨hp, Except.ok.inj <| hx.unique hc⟩, fun hc => hc.right ▸ hx⟩
  case neg =>
    have ⟨e, hx⟩ := h.right hp
    exact ⟨fun hc => (nomatch hx.unique hc), fun hc => absurd hc.left hp⟩

end Decides
end Fueled
