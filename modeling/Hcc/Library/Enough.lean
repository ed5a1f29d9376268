import Mathlib.Order.Lattice

-- Recursions that are bounded by an amount of fuel.
namespace Fueled

-- All large enough amounts of fuel have the property.
def Enough (p : Nat → Prop) : Prop :=
  ∃ n, ∀ fuel ≥ n, p fuel

namespace Enough

variable {p q : Nat → Prop}

theorem of (h : ∀ fuel, p (fuel + 1)) : Enough p := by
  refine ⟨1, fun fuel hf => ?_⟩
  obtain ⟨k, rfl⟩ := Nat.exists_eq_succ_of_ne_zero (Nat.ne_of_gt hf)
  exact h k

theorem and (hp : Enough p) (hq : Enough q) : Enough fun fuel => p fuel ∧ q fuel := by
  obtain ⟨n, hp⟩ := hp
  obtain ⟨k, hq⟩ := hq
  exact ⟨max n k, fun fuel hf => ⟨hp fuel <| (le_max_left ..).trans hf, hq fuel <| (le_max_right ..).trans hf⟩⟩

-- One more level of the recursion.
theorem step (hp : Enough p) (h : ∀ fuel, p fuel → q (fuel + 1)) : Enough q := by
  obtain ⟨n, hp⟩ := hp
  refine ⟨n + 1, fun fuel hf => ?_⟩
  obtain ⟨k, rfl⟩ := Nat.exists_eq_succ_of_ne_zero (Nat.ne_of_gt <| (Nat.succ_pos n).trans_le hf)
  exact h k <| hp k <| Nat.le_of_succ_le_succ hf

theorem mono (hp : Enough p) (h : ∀ fuel, p fuel → q fuel) : Enough q := by
  obtain ⟨n, hp⟩ := hp
  exact ⟨n, fun fuel hf => h fuel <| hp fuel hf⟩

end Enough

end Fueled
