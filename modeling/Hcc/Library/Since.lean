import Mathlib.Init

-- The past of a system as the list of its events, of which the head is the latest.
namespace History

variable {ε : Type} {happens ends : ε → Prop} {e : ε} {past : List ε}

-- An event of one kind has happened, and no event of another kind after it.
def Since (happens ends : ε → Prop) (past : List ε) : Prop :=
  ∃ after e before, past = after ++ e :: before ∧ happens e ∧ ∀ e' ∈ after, ¬ends e'

theorem not_since_nil : ¬Since happens ends [] := by
  intro ⟨after, _, _, h, _⟩
  cases after <;> nomatch h

theorem Since.exists (h : Since happens ends past) : ∃ e ∈ past, happens e := by
  have ⟨after, e, before, hp, he, _⟩ := h
  exact ⟨e, by simp [hp], he⟩

theorem since_cons :
    Since happens ends (e :: past) ↔ happens e ∨ ¬ends e ∧ Since happens ends past := by
  constructor
  case mp =>
    intro ⟨after, e', before, h, hh, ha⟩
    cases after
    case nil =>
      injection h with h
      exact .inl <| h ▸ hh
    case cons a after =>
      injection h with he hp
      subst he
      exact .inr ⟨ha e (.head _), after, e', before, hp, hh, fun d hd => ha d (.tail _ hd)⟩
  case mpr =>
    intro h
    cases h
    case inl h => exact ⟨[], e, past, rfl, h, nofun⟩
    case inr h =>
      have ⟨hn, after, e', before, hp, hh, ha⟩ := h
      refine ⟨e :: after, e', before, by rw [hp, List.cons_append], hh, fun d hd => ?_⟩
      cases hd
      case head    => exact hn
      case tail hd => exact ha d hd

end History
