import Mathlib.Data.List.FinRange
import Mathlib.Order.Defs.Unbundled

-- Sorting an array by exchanges: a position is compared with every later one, and the two elements
-- are exchanged if they are out of order.
namespace ExchangeSort

variable {n i j : Nat} {α : Type} {le : α → α → Prop} {f : Fin n → α}

-- The elements before `i` have their final positions.
def Settled (le : α → α → Prop) (i : Nat) (f : Fin n → α) : Prop :=
  ∀ a b : Fin n, a < i → a ≤ b → le (f a) (f b)

-- None of the elements at `i` and before `j` is less than the one at `i`.
def Least (le : α → α → Prop) (i j : Nat) (f : Fin n → α) : Prop :=
  ∀ a b : Fin n, a = i → a ≤ b → b < j → le (f a) (f b)

theorem Settled.zero : Settled le 0 f :=
  nofun

theorem Settled.next (h : Settled le i f) (hl : Least le i n f) : Settled le (i + 1) f := by
  intro a b ha hb
  by_cases he : a = i
  case pos => exact hl a b he hb b.isLt
  case neg => exact h a b (by omega) hb

theorem Settled.sorted (h : Settled le n f) : (List.ofFn f).Pairwise le :=
  List.pairwise_ofFn.mpr fun a b hab => h a b a.isLt hab.le

theorem Least.self [Std.Refl le] : Least le i (i + 1) f := by
  intro a b ha hb hj
  rw [show b = a by omega]
  exact refl _

variable [DecidableRel le]

variable (le) in
def exchange (i j : Fin n) (f : Fin n → α) : Fin n → α :=
  if le (f i) (f j) then f else f ∘ Equiv.swap i j

theorem exchange_ofFn (i j : Fin n) : (List.ofFn (exchange le i j f)).Perm (List.ofFn f) := by
  rw [exchange]
  split
  case isTrue  => exact .refl _
  case isFalse => exact Equiv.Perm.ofFn_comp_perm (Equiv.swap i j) f

theorem Settled.exchange {i j : Fin n} (h : Settled le i f) (hj : i ≤ j) :
    Settled le i (exchange le i j f) := by
  intro a b ha hb
  rw [ExchangeSort.exchange]
  split
  case isTrue  => exact h a b ha hb
  case isFalse =>
    have ha' : a ≠ i := fun he => by subst he; omega
    have hj' : a ≠ j := fun he => by subst he; omega
    simp only [Function.comp_apply, Equiv.swap_apply_of_ne_of_ne ha' hj']
    refine h a _ ha ?_
    rw [Equiv.swap_apply_def]
    split_ifs <;> omega

theorem Least.exchange [Std.Refl le] [IsTrans α le] [Std.Total le] {i j : Fin n}
    (h : Least le i j f) (hj : i < j) : Least le i (j + 1) (exchange le i j f) := by
  intro a b ha hb hs
  obtain rfl : a = i := Fin.ext ha
  rw [ExchangeSort.exchange]
  split
  case isTrue hl =>
    by_cases he : b = j
    case pos => exact he ▸ hl
    case neg => exact h a b rfl hb (by omega)
  case isFalse hl =>
    have hl : le (f j) (f a) := (total_of le _ _).resolve_left hl
    simp only [Function.comp_apply, Equiv.swap_apply_left]
    rw [Equiv.swap_apply_def]
    split_ifs with hba hbj
    · exact refl _
    · exact hl
    · exact trans_of le hl <| h a b rfl hb (by omega)

end ExchangeSort
