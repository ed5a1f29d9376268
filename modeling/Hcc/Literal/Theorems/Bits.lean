import Hcc.Literal.Theorems.Constant

open Bitwise

namespace Hcc

variable {op : Bool → Bool → Bool} {f : Int → Int → Int} {x y : Int}

-- A number has been shifted to its sign after as many halvings as its absolute value.
theorem ediv_pow_sign (h : x.natAbs ≤ n) : x / 2 ^ n = 0 ∨ x / 2 ^ n = -1 := by
  have hx : (x.natAbs : Int) < 2 ^ n := by exact_mod_cast Nat.lt_of_le_of_lt h Nat.lt_two_pow_self
  have hp : (0 : Int) < 2 ^ n := by positivity
  by_cases hs : 0 ≤ x
  case pos => exact .inl <| Int.ediv_eq_zero_of_lt hs (by omega)
  case neg => exact .inr <| (Int.ediv_emod_unique hp (r := x + 2 ^ n)).mpr ⟨by ring, by omega, by omega⟩ |>.left

theorem bitFoldInt_eq (h : IsBitwise f op) : bitFoldInt op x y = f x y :=
  isBitwise_bitFoldInt.unique h x y

-- Both arguments are halved until they only consist of their signs, and each bit of the result is the operation on the
-- bits of the two's complement expansions of the arguments.
theorem bitOperations_exact (x y : Int) :
    (∃ n, (x / 2 ^ n = 0 ∨ x / 2 ^ n = -1) ∧ (y / 2 ^ n = 0 ∨ y / 2 ^ n = -1)) ∧
    ∀ n, (bitAndInt x y).testBit n = (x.testBit n && y.testBit n) ∧
      (bitOrInt x y).testBit n = (x.testBit n || y.testBit n) ∧
      (bitXorInt x y).testBit n = (x.testBit n ^^ y.testBit n) := by
  refine ⟨⟨max x.natAbs y.natAbs, ediv_pow_sign <| le_max_left .., ediv_pow_sign <| le_max_right ..⟩, fun n => ?_⟩
  rw [bitAndInt, bitOrInt, bitXorInt, bitFoldInt_eq isBitwise_land, bitFoldInt_eq isBitwise_lor,
    bitFoldInt_eq isBitwise_xor]
  exact ⟨Int.testBit_land .., Int.testBit_lor .., Int.testBit_lxor ..⟩

end Hcc
