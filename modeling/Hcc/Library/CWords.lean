import Hcc.Library.CInteger
import Hcc.Library.Words

-- The values of the integer types of C in machine words.
namespace CInteger

open Words

variable {w n : Nat} {s t : IntType} {x y : Int}

section Bits

theorem getLsbD_ofInt {i : Nat} : (BitVec.ofInt w x).getLsbD i = (decide (i < w) && x.testBit i) := by
  cases x
  case ofNat n =>
    rw [Int.ofNat_eq_natCast, BitVec.ofInt_natCast, BitVec.getLsbD_ofNat]
    rfl
  case negSucc n =>
    rw [BitVec.ofInt_negSucc_eq_not_ofNat, BitVec.getLsbD_not, BitVec.getLsbD_ofNat, Int.testBit]
    by_cases h : i < w <;> simp [h]

theorem ofInt_land : BitVec.ofInt w x &&& .ofInt w y = .ofInt w (x.land y) := by
  ext i hi
  simp [←BitVec.getLsbD_eq_getElem, getLsbD_ofInt, hi, Int.testBit_land]

theorem ofInt_lor : BitVec.ofInt w x ||| .ofInt w y = .ofInt w (x.lor y) := by
  ext i hi
  simp [←BitVec.getLsbD_eq_getElem, getLsbD_ofInt, hi, Int.testBit_lor]

theorem ofInt_xor : BitVec.ofInt w x ^^^ .ofInt w y = .ofInt w (x.xor y) := by
  ext i hi
  simp [←BitVec.getLsbD_eq_getElem, getLsbD_ofInt, hi, Int.testBit_lxor]

theorem ofInt_eq_iff : BitVec.ofInt w x = .ofInt w y ↔ x ≡ y [ZMOD 2 ^ w] := by
  have hx := Int.emod_nonneg x (b := 2 ^ w) (by positivity)
  have hy := Int.emod_nonneg y (b := 2 ^ w) (by positivity)
  rw [←BitVec.toNat_inj, BitVec.toNat_ofInt, BitVec.toNat_ofInt, Int.ModEq]
  push_cast
  omega

theorem setWidth_ofInt (h : n ≤ w) : (BitVec.ofInt w x).setWidth n = .ofInt n x := by
  have hd : (2 ^ n : Int) ∣ 2 ^ w := pow_dvd_pow 2 h
  have hx := Int.emod_nonneg x (b := 2 ^ w) (by positivity)
  refine BitVec.eq_of_toNat_eq ?_
  rw [BitVec.toNat_setWidth, BitVec.toNat_ofInt, BitVec.toNat_ofInt]
  zify
  rw [Int.toNat_of_nonneg hx, Int.toNat_of_nonneg (Int.emod_nonneg x (by positivity)), Int.emod_emod_of_dvd _ hd]

theorem ofInt_sub : BitVec.ofInt w (x - y) = .ofInt w x - .ofInt w y := by
  rw [Int.sub_eq_add_neg, BitVec.ofInt_add, BitVec.ofInt_neg, BitVec.sub_eq_add_neg]

theorem ofInt_shiftLeft : BitVec.ofInt w x <<< n = .ofInt w (x * 2 ^ n) := by
  rw [BitVec.ofInt_mul, BitVec.shiftLeft_eq_mul_twoPow, twoPow_eq_ofNat, ←BitVec.ofInt_natCast]
  norm_cast

end Bits

namespace IntType

-- The integer promotions.
def promote (t : IntType) : IntType :=
  if t.size < 4 then .int else t

-- The quotient of two values is a value of the type.
def Divides (t : IntType) (x y : Int) : Prop :=
  y ≠ 0 ∧ t.wrap (x.tdiv y) = x.tdiv y

theorem common_self : t.common t = t := by
  simp [common]

theorem modulus_eq : t.modulus = 2 ^ (8 * t.size) := by
  rw [modulus, Nat.pow_mul]

theorem modulus_dvd (h : w ≤ 8 * t.size) : (2 ^ w : Int) ∣ t.modulus := by
  rw [modulus_eq]
  exact_mod_cast Nat.pow_dvd_pow 2 h

-- A word does not tell values apart that have the same representation in a type that is at least as wide.
theorem ofInt_wrap (h : w ≤ 8 * t.size) : BitVec.ofInt w (t.wrap x) = .ofInt w x :=
  ofInt_eq_iff.mpr <| wrap_modEq.of_dvd <| modulus_dvd h

theorem signExtend_ofInt (h : 8 * t.size ≤ w) (hs : t.unsigned = false) :
    signExtend (8 * t.size) (BitVec.ofInt w x) = .ofInt w (t.wrap x) := by
  rw [signExtend, setWidth_ofInt h, BitVec.signExtend, BitVec.toInt_ofInt, wrap, hs, modulus_eq]
  rfl

theorem zeroExtend_ofInt (h : 8 * t.size ≤ w) (hs : t.unsigned = true) :
    zeroExtend (8 * t.size) (BitVec.ofInt w x) = .ofInt w (t.wrap x) := by
  refine BitVec.eq_of_toNat_eq ?_
  rw [zeroExtend, setWidth_ofInt h, wrap, hs, if_pos rfl, modulus_eq, BitVec.toNat_setWidth, BitVec.toNat_ofInt,
    BitVec.toNat_ofInt]
  have hx := Int.emod_nonneg x (b := 2 ^ (8 * t.size)) (by positivity)
  zify
  rw [Int.toNat_of_nonneg hx, Int.toNat_of_nonneg (Int.emod_nonneg _ (by positivity))]

theorem toInt_ofInt (h : 8 * t.size ≤ w) (hs : t.unsigned = false) (hx : t.wrap x = x) :
    (BitVec.ofInt w x).toInt = x := by
  have hx := wrap_eq_self_iff.mp hx
  rw [hs, if_neg (by decide)] at hx
  have hm : t.modulus ≤ 2 ^ w := modulus_eq ▸ Nat.pow_le_pow_right Nat.two_pos h
  rw [BitVec.toInt_ofInt]
  exact Int.bmod_eq_of_le_mul_two (by omega) (by omega)

theorem toNat_ofInt (h : 8 * t.size ≤ w) (hs : t.unsigned = true) (hx : t.wrap x = x) :
    ((BitVec.ofInt w x).toNat : Int) = x := by
  have hx := wrap_eq_self_iff.mp hx
  rw [hs, if_pos rfl] at hx
  have hm : t.modulus ≤ 2 ^ w := modulus_eq ▸ Nat.pow_le_pow_right Nat.two_pos h
  rw [BitVec.toNat_ofInt, Int.emod_eq_of_lt hx.left (by omega), Int.toNat_of_nonneg hx.left]

theorem ofInt_inj (h : 8 * t.size ≤ w) (hx : t.wrap x = x) (hy : t.wrap y = y) :
    BitVec.ofInt w x = .ofInt w y ↔ x = y where
  mpr := congrArg _
  mp he := by
    have hd : (t.modulus : Int) ∣ 2 ^ w := by
      rw [modulus_eq]
      exact_mod_cast Nat.pow_dvd_pow 2 h
    rw [←hx, ←hy]
    exact wrap_congr <| (ofInt_eq_iff.mp he).of_dvd hd

theorem ofInt_eq_zero_iff (h : 8 * t.size ≤ w) (hx : t.wrap x = x) : BitVec.ofInt w x = 0 ↔ x = 0 :=
  (ofInt_inj h hx wrap_zero).trans .rfl

end IntType

section Values

-- The values of a type are values of the promoted type.
theorem IntType.promote_wrap (h : t.wrap x = x) : t.promote.wrap x = x := by
  unfold promote
  split
  case isFalse => exact h
  case isTrue hl =>
    rw [wrap_eq_self_iff] at *
    have hm : (t.modulus : Int) ≤ 2 ^ 24 := by
      have hp : 256 ^ t.size ≤ 256 ^ 3 := Nat.pow_le_pow_right (by decide) (by omega)
      exact_mod_cast hp
    have hi : int.modulus = 2 ^ 32 := rfl
    rw [hi, if_neg (by decide)]
    split at h <;> omega

theorem IntType.wrap_ofBool {b : Bool} (h : 0 < t.size) : t.wrap (BinaryOp.ofBool b) = BinaryOp.ofBool b := by
  have hm : (256 : Int) ≤ t.modulus := by
    have hp : 256 ^ 1 ≤ 256 ^ t.size := Nat.pow_le_pow_right (by decide) h
    exact_mod_cast hp
  have hb : 0 ≤ BinaryOp.ofBool b ∧ BinaryOp.ofBool b ≤ 1 := by cases b <;> decide
  rw [wrap_eq_self_iff]
  split <;> omega

end Values

-- Both operands are evaluated.
def BinaryOp.Strict (op : BinaryOp) : Prop :=
  op ≠ .logicalAnd ∧ op ≠ .logicalOr

-- The operands of the other operators are converted to their common type.
theorem BinaryOp.eval_common {op : BinaryOp} (hs : op.IsShift = false) (hl : op.Strict) :
    op.eval s t x y =
      op.eval (s.common t) (s.common t) ((s.common t).wrap x) ((s.common t).wrap y) := by
  unfold eval
  rw [IntType.common_self, IntType.wrap_wrap, IntType.wrap_wrap]
  cases op
  case shl        => contradiction
  case shr        => contradiction
  case logicalAnd => exact absurd rfl hl.left
  case logicalOr  => exact absurd rfl hl.right
  all_goals rfl

-- The value of a test is a truth value.
theorem BinaryOp.eval_isTest {op : BinaryOp} (h : op.IsTest) : ∃ p, op.eval s t x y = ofBool p := by
  cases op
  case eq | ne | lt | le | gt | ge | logicalAnd | logicalOr => exact ⟨_, rfl⟩
  all_goals cases h

-- The values of the other operators are converted to the common type of the operands.
theorem BinaryOp.value_strict {op : BinaryOp} (hs : op.IsShift = false) :
    op.value s t x y = if op.IsTest then op.eval s t x y else (s.common t).wrap (op.eval s t x y) := by
  rw [value, resultType, hs, if_neg (by decide)]
  split
  case isTrue ht =>
    obtain ⟨p, hp⟩ := eval_isTest ht
    rw [hp]
    exact IntType.wrap_ofBool (by decide)
  case isFalse => rfl

end CInteger
