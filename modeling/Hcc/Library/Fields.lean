import Mathlib.Data.List.Basic

-- Sequences of nonempty fields that are separated by a single separator.
namespace Fields

variable {α : Type} {sep : α} {f : List α} {fs gs : List (List α)} {blank : α → Bool}

def join (sep : α) : List (List α) → List α
  | []          => []
  | [f]         => f
  | f :: g :: fs => f ++ sep :: join sep (g :: fs)

@[simp]
theorem join_nil : join sep [] = [] := rfl

@[simp]
theorem join_singleton : join sep [f] = f := rfl

theorem join_cons (h : fs ≠ []) : join sep (f :: fs) = f ++ sep :: join sep fs := by
  cases fs
  case nil  => contradiction
  case cons => rfl

theorem join_append (hf : fs ≠ []) (hg : gs ≠ []) :
    join sep (fs ++ gs) = join sep fs ++ sep :: join sep gs := by
  induction fs
  case nil => contradiction
  case cons f fs hi =>
    by_cases h : fs = []
    case pos => simp [h, join_cons hg]
    case neg =>
      rw [List.cons_append, join_cons (by simp [h]), hi h, join_cons h, List.append_assoc]
      rfl

-- The first field, followed by lists of fields that are each preceded by a separator.
theorem join_cons_flatMap {fields : β → List (List α)} (h : ∀ b, fields b ≠ []) {bs : List β} :
    join sep (f :: bs.flatMap fields) = f ++ bs.flatMap fun b => sep :: join sep (fields b) := by
  induction bs generalizing f
  case nil => simp
  case cons b bs hi =>
    rw [List.flatMap_cons, List.flatMap_cons, join_cons (by simp [h])]
    cases bs
    case nil => simp
    case cons b' bs =>
      have hb : (b' :: bs).flatMap fields ≠ [] := by simp [h]
      have := @hi []
      rw [join_cons hb] at this
      simp only [List.nil_append] at this
      rw [join_append (h b) hb, this]
      rfl

theorem mem_join (h : a ∈ join sep fs) : a = sep ∨ ∃ f ∈ fs, a ∈ f := by
  fun_induction join <;> simp_all
  grind

theorem length_le_join : fs.length ≤ (join sep fs).length + 1 := by
  fun_induction join sep fs <;> simp at *
  omega

-- A field that contains no blanks, in a sequence whose separator is a blank.
structure IsField (blank : α → Bool) (f : List α) : Prop where
  nonempty : f ≠ []
  solid    : ∀ a ∈ f, blank a = false

variable (hs : blank sep = true) (hf : IsField blank f)

include hf in
theorem dropWhile_blank : (join sep (f :: fs)).dropWhile blank = join sep (f :: fs) := by
  rcases f with _ | ⟨a, f⟩
  case nil  => exact absurd rfl hf.nonempty
  case cons =>
    have ha := hf.solid a (.head _)
    cases fs <;> simp [join, ha]

include hs hf

theorem takeWhile_not_blank : (join sep (f :: fs)).takeWhile (!blank ·) = f := by
  have h : ∀ a ∈ f, (!blank a) = true := fun a ha => by simp [hf.solid a ha]
  cases fs
  case nil  => simpa using @List.takeWhile_append_of_pos _ _ _ [] h
  case cons => simp [join, List.takeWhile_append_of_pos h, hs]

theorem dropWhile_not_blank : ((join sep (f :: fs)).dropWhile (!blank ·)).tail = join sep fs := by
  have h : ∀ a ∈ f, (!blank a) = true := fun a ha => by simp [hf.solid a ha]
  cases fs
  case nil  => simpa using congrArg List.tail <| @List.dropWhile_append_of_pos _ _ _ [] h
  case cons => simp [join, List.dropWhile_append_of_pos h, hs]

end Fields
