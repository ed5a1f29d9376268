import Hcc.Driver.Basic
import Mathlib.Data.List.Infix
import Mathlib.Tactic.Tauto

namespace Hcc

variable {text rest : List Char} {c : Char}

-- Translation phase 2: Backslashes that are followed by a newline are deleted together with it.
def deleteSplices : List Char → List Char
  | []                              => []
  | '\\' :: '\n' :: rest            => deleteSplices rest
  | '\\' :: '\x0d' :: '\n' :: rest  => deleteSplices rest
  | c :: rest                       => c :: deleteSplices rest

-- The text has a backslash before the backslash of a splice, or a newline after its newline.
def Crowded (text : List Char) : Prop :=
  ['\\', '\\', '\n'] <:+: text ∨ ['\\', '\n', '\n'] <:+: text

instance : Decidable (Crowded text) :=
  inferInstanceAs <| Decidable (_ ∨ _)

theorem crowded_cons : Crowded (c :: text) ↔
    ['\\', '\\', '\n'] <+: c :: text ∨ ['\\', '\n', '\n'] <+: c :: text ∨ Crowded text := by
  simp only [Crowded, List.infix_cons_iff]
  tauto

theorem deleteSplices_cons (h : ∀ rest, text ≠ '\n' :: rest) (h' : ∀ rest, text ≠ '\x0d' :: '\n' :: rest) :
    deleteSplices (c :: text) = c :: deleteSplices text := by
  rw [deleteSplices]
  case x_1 => exact fun rest _ => h rest
  case x_2 => exact fun rest _ => h' rest

theorem deleteSplices_other (h : c ≠ '\\') : deleteSplices (c :: text) = c :: deleteSplices text := by
  rw [deleteSplices]
  all_goals exact fun _ hc => absurd hc h

-- What the scanner copies when a newline follows two characters later.
theorem deleteSplices_window (h : c ≠ '\x0d') : deleteSplices ('\\' :: c :: '\n' :: rest) =
    if c = '\n' then '\n' :: deleteSplices rest
    else if c = '\\' then '\\' :: deleteSplices rest
    else '\\' :: c :: '\n' :: deleteSplices rest := by
  split_ifs with hn hb
  case pos =>
    rw [hn, deleteSplices, deleteSplices_other (by decide)]
  case pos =>
    rw [hb, deleteSplices_cons (by simp) (by simp), deleteSplices]
  case neg =>
    rw [deleteSplices_cons (by simp [hn]) (by simp [h]), deleteSplices_other hb, deleteSplices_other (by decide)]

-- At most the splices are deleted.
theorem length_deleteSplices_le : (deleteSplices text).length ≤ (spliceContinuations text).length := by
  fun_induction spliceContinuations text
  case case1 => exact le_rfl
  case case2 hi => exact hi
  case case3 hc hi =>
    rw [deleteSplices_window hc]
    split_ifs <;> simp only [List.length_cons] <;> omega
  case case4 hi => exact hi
  case case5 c rest hw hs hi =>
    by_cases hc : c = '\\'
    case pos => 
      rw [deleteSplices_cons (fun rest => hs rest hc) (fun rest => hw _ rest hc)]
      exact Nat.succ_le_succ hi
    case neg =>
      rw [deleteSplices_other hc]
      exact Nat.succ_le_succ hi

theorem spliceContinuations_eq_iff : spliceContinuations text = deleteSplices text ↔ ¬Crowded text := by
  fun_induction spliceContinuations text
  case case1 => simp [Crowded, deleteSplices]
  case case2 hi =>
    rw [deleteSplices, hi]
    simp [crowded_cons]
  case case3 c rest hc hi =>
    have hl : (deleteSplices rest).length ≤ (spliceContinuations rest).length := length_deleteSplices_le
    rw [deleteSplices_window hc]
    split_ifs with hn hb
    case pos =>
      have hw : Crowded ('\\' :: c :: '\n' :: rest) := by simp [crowded_cons, hn]
      simp only [hw, not_true_eq_false, iff_false]
      intro he
      have he := congrArg List.length he
      simp only [List.length_cons] at he
      omega
    case pos =>
      have hw : Crowded ('\\' :: c :: '\n' :: rest) := by simp [crowded_cons, hb]
      simp only [hw, not_true_eq_false, iff_false]
      intro he
      have he := congrArg List.length he
      simp only [List.length_cons] at he
      omega
    case neg =>
      simp [crowded_cons, Ne.symm hn, Ne.symm hb, hi]
  case case4 rest hs hi =>
    rw [deleteSplices, hi]
    have hp : ¬['\n'] <+: rest := fun ⟨rest, h⟩ => hs rest h.symm
    simp [crowded_cons, hp]
  case case5 c rest hw hs hi =>
    by_cases hc : c = '\\'
    case pos =>
      subst hc
      have hp : ¬['\\', '\n'] <+: rest := fun ⟨rest, h⟩ => hw _ rest rfl h.symm
      have hp' : ¬['\n', '\n'] <+: rest := fun ⟨rest, h⟩ => hw _ rest rfl h.symm
      rw [deleteSplices_cons (fun rest => hs rest rfl) (fun rest => hw _ rest rfl)]
      simp [crowded_cons, hp, hp', hi]
    case neg =>
      rw [deleteSplices_other hc]
      simp [crowded_cons, Ne.symm hc, hi]

-- A blank line after a continued line.
theorem spliceContinuations_not_exact :
    ¬∀ text, spliceContinuations text = deleteSplices text := by
  intro h
  exact absurd (h "#define X 1 \\\n\nint a;".toList) <| by decide

end Hcc
