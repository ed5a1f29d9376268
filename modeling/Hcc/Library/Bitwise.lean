import Hcc.Library.Digits
import Mathlib.Data.Int.Bitwise

-- Operations on integers that act on each bit of the two's complement expansions of their arguments
-- independently.
namespace Bitwise

open Digits

variable {f g : Int → Int → Int} {op : Bool → Bool → Bool} {x y : Int}

def lowBit (op : Bool → Bool → Bool) (x y : Int) : Int :=
  if op (x % 2 ≠ 0) (y % 2 ≠ 0) then 1 else 0

-- `f` computes the lowest bit by `op` and all of the other bits recursively.
def IsBitwise (f : Int → Int → Int) (op : Bool → Bool → Bool) : Prop :=
  ∀ x y, f x y = 2 * f (x / 2) (y / 2) + lowBit op x y

theorem lowBit_bounds (op x y) : 0 ≤ lowBit op x y ∧ lowBit op x y < 2 := by
  simp only [lowBit]
  split <;> decide

theorem lowBit_congr (hx : x % 2 = z % 2) (hy : y % 2 = w % 2) :
    lowBit op x y = lowBit op z w := by
  simp [lowBit, hx, hy]

namespace IsBitwise

theorem div_two (h : IsBitwise f op) : f x y / 2 = f (x / 2) (y / 2) := by
  have := lowBit_bounds op x y
  have := h x y
  omega

theorem mod_two (h : IsBitwise f op) : f x y % 2 = lowBit op x y := by
  have := lowBit_bounds op x y
  have := h x y
  omega

theorem div_pow (h : IsBitwise f op) : f x y / 2 ^ n = f (x / 2 ^ n) (y / 2 ^ n) := by
  induction n generalizing x y
  case zero      => simp
  case succ n hi => simp only [pow_succ', ←Int.ediv_ediv_of_nonneg two_pos.le, h.div_two, hi]

theorem mod_pow (h : IsBitwise f op) (h₀ : f 0 0 = 0) :
    f x y % 2 ^ n = f (x % 2 ^ n) (y % 2 ^ n) := by
  induction n generalizing x y
  case zero      => simp [Int.emod_one, h₀]
  case succ n hi =>
    have hs (z : Int) : z % 2 ^ (n + 1) = z % 2 + 2 * (z / 2 % 2 ^ n) := by
      rw [pow_succ', emod_mul two_pos]
    have hd (z : Int) : (z % 2 + 2 * (z / 2 % 2 ^ n)) / 2 = z / 2 % 2 ^ n := by omega
    rw [hs (f x y), hs x, hs y, h (x % 2 + _), hd, hd, h.mod_two, h.div_two, hi,
      lowBit_congr (x := x % 2 + _) (z := x) (w := y) (by omega) (by omega)]
    ring

-- A bitwise operation is determined by its operation on bits.
theorem unique (hf : IsBitwise f op) (hg : IsBitwise g op) (x y : Int) : f x y = g x y := by
  by_cases h : (x = 0 ∨ x = -1) ∧ (y = 0 ∨ y = -1)
  case pos =>
    have hx : x / 2 = x := by omega
    have hy : y / 2 = y := by omega
    have := hf x y
    have := hg x y
    rw [hx, hy] at *
    omega
  case neg =>
    have hi := unique hf hg (x / 2) (y / 2)
    rw [hf x y, hg x y, hi]
termination_by x.natAbs + y.natAbs
decreasing_by omega

theorem bounds (h : IsBitwise f op) (h₀ : f 0 0 = 0) (hx : 0 ≤ x ∧ x < 2 ^ n)
    (hy : 0 ≤ y ∧ y < 2 ^ n) : 0 ≤ f x y ∧ f x y < 2 ^ n := by
  have hp : (0 : Int) < 2 ^ n := by positivity
  have := h.mod_pow h₀ (x := x) (y := y) (n := n)
  rw [Int.emod_eq_of_lt hx.left hx.right, Int.emod_eq_of_lt hy.left hy.right] at this
  exact this ▸ ⟨Int.emod_nonneg _ hp.ne', Int.emod_lt_of_pos _ hp⟩

-- A bitwise operation acts independently on the digits over a base that is a power of two.
theorem value_zipWith (h : IsBitwise f op) (h₀ : f 0 0 = 0) (hl : as.length = bs.length)
    (ha : Proper (2 ^ n) as) (hb : Proper (2 ^ n) bs) :
    value (2 ^ n) (List.zipWith f as bs) = f (value (2 ^ n) as) (value (2 ^ n) bs) := by
  induction as generalizing bs <;> cases bs <;> simp_all
  case cons.cons a as hi b bs =>
    have hm (d v : Int) (hd : 0 ≤ d ∧ d < 2 ^ n) : (d + 2 ^ n * v) % 2 ^ n = d := by
      rw [Int.add_mul_emod_self_left, Int.emod_eq_of_lt hd.left hd.right]
    have hq (d v : Int) (hd : 0 ≤ d ∧ d < 2 ^ n) : (d + 2 ^ n * v) / 2 ^ n = v := by
      rw [Int.add_mul_ediv_left _ _ (pow_ne_zero _ two_ne_zero), Int.ediv_eq_zero_of_lt hd.left hd.right, zero_add]
    rw [←Int.emod_add_mul_ediv (f (a + _) _) (2 ^ n), h.mod_pow h₀, h.div_pow, hm _ _ ha.left,
      hm _ _ hb.left, hq _ _ ha.left, hq _ _ hb.left]

theorem proper_zipWith (h : IsBitwise f op) (h₀ : f 0 0 = 0)
    (ha : Proper (2 ^ n) as) (hb : Proper (2 ^ n) bs) : Proper (2 ^ n) (List.zipWith f as bs) := by
  induction as generalizing bs <;> cases bs <;> simp_all
  exact h.bounds h₀ ha.left hb.left

end IsBitwise

section Operations

theorem mod_two_ne_zero : (decide (x % 2 ≠ 0)) = x.bodd := by
  have := Int.bodd_add_div2 x
  cases h : x.bodd <;> simp only [h, cond] at this <;> simp <;> omega

theorem isBitwise_of_bit (h : ∀ a m b n, f (.bit a m) (.bit b n) = .bit (op a b) (f m n)) :
    IsBitwise f op := by
  intro x y
  have := h x.bodd x.div2 y.bodd y.div2
  rw [Int.bit_decomp, Int.bit_decomp, Int.bit_val, Int.div2_val, Int.div2_val] at this
  rw [this, lowBit, mod_two_ne_zero, mod_two_ne_zero]
  cases op x.bodd y.bodd <;> rfl

theorem isBitwise_land : IsBitwise Int.land (· && ·) :=
  isBitwise_of_bit Int.land_bit

theorem isBitwise_lor : IsBitwise Int.lor (· || ·) :=
  isBitwise_of_bit Int.lor_bit

theorem isBitwise_xor : IsBitwise Int.xor (· != ·) :=
  isBitwise_of_bit Int.lxor_bit

end Operations
end Bitwise
