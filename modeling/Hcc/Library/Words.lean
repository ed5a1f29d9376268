import Mathlib.Algebra.Group.Int.Defs
import Mathlib.Algebra.Group.Nat.Defs
import Mathlib.Data.Int.Basic

-- Comparisons of words by the flags of a subtraction, and extensions of the low bits of words.
namespace Words

variable {w n : Nat} {a b x : BitVec w}

inductive Condition
  | eq | ne | lt | le | gt | ge | ult | ule | ugt | uge
deriving DecidableEq, Repr

namespace Condition

def holds : Condition → (a b : BitVec w) → Bool
  | eq,  a, b => a = b
  | ne,  a, b => a ≠ b
  | lt,  a, b => a.toInt < b.toInt
  | le,  a, b => a.toInt ≤ b.toInt
  | gt,  a, b => a.toInt > b.toInt
  | ge,  a, b => a.toInt ≥ b.toInt
  | ult, a, b => a.toNat < b.toNat
  | ule, a, b => a.toNat ≤ b.toNat
  | ugt, a, b => a.toNat > b.toNat
  | uge, a, b => a.toNat ≥ b.toNat

def negate : Condition → Condition
  | eq  => ne
  | ne  => eq
  | lt  => ge
  | le  => gt
  | gt  => le
  | ge  => lt
  | ult => uge
  | ule => ugt
  | ugt => ule
  | uge => ult

-- The condition with its operands exchanged.
def swap : Condition → Condition
  | eq  => eq
  | ne  => ne
  | lt  => gt
  | le  => ge
  | gt  => lt
  | ge  => le
  | ult => ugt
  | ule => uge
  | ugt => ult
  | uge => ule

variable (c : Condition)

@[simp]
theorem negate_negate : c.negate.negate = c := by
  cases c <;> rfl

theorem holds_negate : c.negate.holds a b = !c.holds a b := by
  cases c <;> simp only [holds, negate] <;> grind

theorem holds_swap : c.swap.holds b a = c.holds a b := by
  cases c <;> simp [holds, swap, eq_comm]

end Condition

-- What a subtraction leaves behind of its result.
structure Flags where
  zero     : Bool
  negative : Bool
  borrow   : Bool
  overflow : Bool
deriving DecidableEq, Repr

namespace Flags

def ofSub (a b : BitVec w) : Flags where
  zero     := a - b = 0
  negative := (a - b).msb
  borrow   := a.toNat < b.toNat
  overflow := (a - b).toInt ≠ a.toInt - b.toInt

def satisfy (f : Flags) : Condition → Bool
  | .eq  => f.zero
  | .ne  => !f.zero
  | .lt  => f.negative != f.overflow
  | .le  => f.zero || f.negative != f.overflow
  | .gt  => !f.zero && f.negative == f.overflow
  | .ge  => f.negative == f.overflow
  | .ult => f.borrow
  | .ule => f.borrow || f.zero
  | .ugt => !f.borrow && !f.zero
  | .uge => !f.borrow

theorem zero_ofSub : (ofSub a b).zero = decide (a = b) := by
  have : a - b = 0 ↔ a = b := by simp [BitVec.sub_eq_iff_eq_add]
  simp only [ofSub, this]

-- The sign of the difference is wrong exactly if it overflows.
theorem signed_ofSub : ((ofSub a b).negative != (ofSub a b).overflow) = decide (a.toInt < b.toInt) := by
  have ha := a.two_mul_toInt_lt
  have ha' := a.le_two_mul_toInt
  have hb := b.two_mul_toInt_lt
  have hb' := b.le_two_mul_toInt
  have hs := BitVec.toInt_sub (x := a) (y := b)
  have hn := Int.bmod_neg_iff (m := 2 ^ w) (x := a.toInt - b.toInt) (by grind) (by grind)
  have hr := Int.bmod_eq_of_le_mul_two (x := a.toInt - b.toInt) (y := 2 ^ w)
  rw [←hs] at hn hr
  simp only [ofSub, BitVec.msb_eq_toInt]
  by_cases ho : (a - b).toInt = a.toInt - b.toInt
  case pos =>
    simp only [ho, ne_eq, not_true, decide_false, Bool.bne_false, decide_eq_decide]
    omega
  case neg =>
    simp only [decide_not, bne, beq_eq_decide]
    grind

theorem satisfy_ofSub (c : Condition) : (ofSub a b).satisfy c = c.holds a b := by
  have hz := zero_ofSub (a := a) (b := b)
  have hs := signed_ofSub (a := a) (b := b)
  have hi : a = b ↔ a.toInt = b.toInt := BitVec.toInt_inj.symm
  have hn : a = b ↔ a.toNat = b.toNat := BitVec.toNat_inj.symm
  have hb : (ofSub a b).borrow = decide (a.toNat < b.toNat) := rfl
  have he : ((ofSub a b).negative == (ofSub a b).overflow) = !decide (a.toInt < b.toInt) := by
    rw [←hs, bne, Bool.not_not]
  cases c
  all_goals simp only [satisfy, Condition.holds, hz, hs, hb, he]
  all_goals grind

end Flags

section Extensions

-- The low `n` bits of a word, with its other bits cleared or equal to the highest of them.
def zeroExtend (n : Nat) (x : BitVec w) : BitVec w :=
  (x.setWidth n).setWidth w

def signExtend (n : Nat) (x : BitVec w) : BitVec w :=
  (x.setWidth n).signExtend w

theorem and_mask (h : n ≤ w) : x &&& .ofNat w (2 ^ n - 1) = zeroExtend n x := by
  have hn := Nat.pow_le_pow_right Nat.two_pos h
  have hp := Nat.two_pow_pos n
  have hm : (2 ^ n - 1) % 2 ^ w = 2 ^ n - 1 := Nat.mod_eq_of_lt (by omega)
  have hx : x.toNat % 2 ^ n < 2 ^ w := Nat.lt_of_lt_of_le (Nat.mod_lt _ hp) hn
  apply BitVec.eq_of_toNat_eq
  simp [zeroExtend, hm, Nat.mod_eq_of_lt hx]

theorem xor_eq_add (h : a &&& b = 0) : a ^^^ b = a + b := by
  rw [BitVec.add_eq_or_of_and_eq_zero _ _ h]
  ext i hi
  have := congrArg (·[i]) h
  simp at this ⊢
  cases ha : a[i] <;> simp_all

-- Flipping a bit adds or subtracts its weight.
theorem xor_twoPow_of_not_getLsbD (h : x.getLsbD n = false) : x ^^^ .twoPow w n = x + .twoPow w n := by
  apply xor_eq_add
  ext i hi
  have hn : x[i] = true → i ≠ n := by
    rintro hx rfl
    rw [←BitVec.getLsbD_eq_getElem, h] at hx
    contradiction
  simpa [BitVec.getElem_twoPow] using hn

theorem xor_twoPow_of_getLsbD (hn : n < w) (h : x.getLsbD n) : x ^^^ .twoPow w n = x - .twoPow w n := by
  have hx : (x ^^^ .twoPow w n).getLsbD n = false := by simp [h, hn]
  rw [BitVec.eq_sub_iff_add_eq, ←xor_twoPow_of_not_getLsbD hx, BitVec.xor_assoc, BitVec.xor_self,
    BitVec.xor_zero]

theorem signExtend_of_not_getLsbD (h : x.getLsbD n = false) :
    signExtend (n + 1) x = zeroExtend (n + 1) x :=
  BitVec.signExtend_eq_setWidth_of_msb_false <| by simp [BitVec.msb_setWidth, h]

theorem twoPow_eq_ofNat : BitVec.twoPow w n = .ofNat w (2 ^ n) :=
  BitVec.eq_of_toNat_eq <| by rw [BitVec.toNat_twoPow, BitVec.toNat_ofNat]

theorem twoPow_add_twoPow : BitVec.twoPow w n + .twoPow w n = .twoPow w (n + 1) := by
  simp only [twoPow_eq_ofNat, ←BitVec.ofNat_add, ←Nat.two_mul, Nat.pow_succ']

theorem signExtend_of_getLsbD (h : x.getLsbD n) :
    signExtend (n + 1) x = zeroExtend (n + 1) x - .twoPow w (n + 1) := by
  have hm : (x.setWidth (n + 1)).msb = true := by simp [BitVec.msb_setWidth, h]
  rw [signExtend, BitVec.signExtend, BitVec.toInt_eq_msb_cond, if_pos hm, Int.sub_eq_add_neg,
    BitVec.ofInt_add, BitVec.ofInt_neg, BitVec.ofInt_natCast, BitVec.ofInt_natCast, BitVec.ofNat_toNat,
    twoPow_eq_ofNat, zeroExtend, BitVec.sub_eq_add_neg]

theorem xor_sub_signBit (hn : n < w) :
    (zeroExtend (n + 1) x ^^^ .twoPow w n) - .twoPow w n = signExtend (n + 1) x := by
  have hz : (zeroExtend (n + 1) x).getLsbD n = x.getLsbD n := by simp [zeroExtend, hn]
  cases h : x.getLsbD n
  case false =>
    rw [xor_twoPow_of_not_getLsbD (hz.trans h), signExtend_of_not_getLsbD h, BitVec.add_sub_cancel]
  case true =>
    rw [xor_twoPow_of_getLsbD hn (hz.trans h), signExtend_of_getLsbD h, ←twoPow_add_twoPow, BitVec.sub_sub]

end Extensions
end Words
