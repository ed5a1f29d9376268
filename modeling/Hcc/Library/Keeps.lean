import Hcc.Library.Stateful

-- Invariants of computations with a state.
namespace Stateful

open Fueled

variable {σ ε α β : Type} {I : σ → Prop} {m : Stateful σ ε α} {f : α → Stateful σ ε β} {p q : α → Prop} {r : β → Prop}

-- A result of a computation that starts with the invariant has the property, and the invariant is kept.
def Keeps (I : σ → Prop) (m : Stateful σ ε α) (p : α → Prop) : Prop :=
  ∀ ⦃s a s'⦄, I s → Run m s a s' → p a ∧ I s'

namespace Keeps

theorem pure {a : α} (h : p a) : Keeps I (Pure.pure a : Stateful σ ε α) p := by
  intro s b s' hs hr
  obtain ⟨rfl, rfl⟩ := run_pure_iff.mp hr
  exact ⟨h, hs⟩

theorem bind (hm : Keeps I m p) (hf : ∀ a, p a → Keeps I (f a) r) : Keeps I (m >>= f) r := by
  intro s b s' hs hr
  obtain ⟨a, s₁, hr, hr'⟩ := run_bind_iff.mp hr
  have ⟨ha, hs₁⟩ := hm hs hr
  exact hf a ha hs₁ hr'

theorem mono (hm : Keeps I m p) (h : ∀ a, p a → q a) : Keeps I m q :=
  fun _ _ _ hs hr => (hm hs hr).imp_left <| h _

theorem and (hp : Keeps I m p) (hq : Keeps I m q) : Keeps I m fun a => p a ∧ q a :=
  fun _ _ _ hs hr => ⟨⟨(hp hs hr).left, (hq hs hr).left⟩, (hp hs hr).right⟩

theorem throw {e : ε} : Keeps I (MonadExcept.throw e : Stateful σ ε α) p :=
  fun _ _ _ _ hr => absurd hr not_run_throw

theorem outOfFuel : Keeps I (Stateful.outOfFuel : Stateful σ ε α) p :=
  fun _ _ _ _ hr => absurd hr not_run_outOfFuel

theorem get : Keeps I (MonadState.get : Stateful σ ε σ) I := by
  intro s a s' hs hr
  obtain ⟨rfl, rfl⟩ := run_get_iff.mp hr
  exact ⟨hs, hs⟩

theorem modify {g : σ → σ} (h : ∀ s, I s → I (g s)) : Keeps I (modify g : Stateful σ ε Unit) fun _ => True := by
  intro s a s' hs hr
  obtain rfl := run_modify_iff.mp hr
  exact ⟨trivial, h s hs⟩

end Keeps
end Stateful
