import Hcc.Ir.Arithmetic
import Hcc.Library.CWords

-- The instructions that compute the integer operators of C on words.
namespace Hcc

open CInteger

variable {w : Nat} {t u : IntType} {x y : Int} {op : BinaryOp}

-- The instruction for operands of an integer type.
def instruction (unsigned : Bool) : BinaryOp → BinOp
  | .add        => .add
  | .sub        => .sub
  | .mul        => .mul
  | .div        => if unsigned then .udiv else .div
  | .mod        => if unsigned then .umod else .mod
  | .shl        => .shl
  | .shr        => if unsigned then .shr else .sar
  | .eq         => .eq
  | .ne         => .ne
  | .lt         => if unsigned then .ult else .lt
  | .le         => if unsigned then .ule else .le
  | .gt         => if unsigned then .ugt else .gt
  | .ge         => if unsigned then .uge else .ge
  | .and        => .and
  | .or         => .or
  | .xor        => .xor
  | .logicalAnd => .and
  | .logicalOr  => .or

theorem truth_eq_ofInt {p : Prop} [Decidable p] : truth w (decide p) = .ofInt w (BinaryOp.ofBool (decide p)) := by
  by_cases h : p <;> simp [truth, BinaryOp.ofBool, h]

-- The instructions that depend on the signedness, on the numbers that the words stand for.
theorem eval_signed (h : 8 * t.size ≤ w) (hu : t.unsigned = false) (hx : t.wrap x = x) (hy : t.wrap y = y) :
    (BinOp.div.eval (BitVec.ofInt w x) (.ofInt w y) = .ofInt w (x.tdiv y) ∧
      BinOp.mod.eval (BitVec.ofInt w x) (.ofInt w y) = .ofInt w (x.tmod y)) ∧
    (BinOp.lt.eval (BitVec.ofInt w x) (.ofInt w y) = truth w (x < y) ∧
      BinOp.le.eval (BitVec.ofInt w x) (.ofInt w y) = truth w (x ≤ y)) ∧
    BinOp.gt.eval (BitVec.ofInt w x) (.ofInt w y) = truth w (x > y) ∧
      BinOp.ge.eval (BitVec.ofInt w x) (.ofInt w y) = truth w (x ≥ y) := by
  simp only [BinOp.eval, IntType.toInt_ofInt h hu hx, IntType.toInt_ofInt h hu hy, and_self]

theorem eval_unsigned (h : 8 * t.size ≤ w) (hu : t.unsigned = true) (hx : t.wrap x = x) (hy : t.wrap y = y) :
    (BinOp.udiv.eval (BitVec.ofInt w x) (.ofInt w y) = .ofInt w (x.tdiv y) ∧
      BinOp.umod.eval (BitVec.ofInt w x) (.ofInt w y) = .ofInt w (x.tmod y)) ∧
    (BinOp.ult.eval (BitVec.ofInt w x) (.ofInt w y) = truth w (x < y) ∧
      BinOp.ule.eval (BitVec.ofInt w x) (.ofInt w y) = truth w (x ≤ y)) ∧
    BinOp.ugt.eval (BitVec.ofInt w x) (.ofInt w y) = truth w (x > y) ∧
      BinOp.uge.eval (BitVec.ofInt w x) (.ofInt w y) = truth w (x ≥ y) := by
  have hx := IntType.toNat_ofInt h hu hx
  have hy := IntType.toNat_ofInt h hu hy
  simp only [BinOp.eval]
  generalize (BitVec.ofInt w x).toNat = a at *
  generalize (BitVec.ofInt w y).toNat = b at *
  subst hx hy
  simp only [←BitVec.ofInt_natCast, Int.ofNat_tdiv, Int.ofNat_tmod, Int.ofNat_lt, Int.ofNat_le, gt_iff_lt, ge_iff_le,
    and_self]

theorem eval_instruction (h : 8 * t.size ≤ w) (hx : t.wrap x = x) (hy : t.wrap y = y) (hs : op.IsShift = false)
    (hl : op.Strict) :
    (instruction t.unsigned op).eval (BitVec.ofInt w x) (.ofInt w y) = .ofInt w (op.eval t t x y) := by
  have hi : truth w (BitVec.ofInt w x = .ofInt w y) = truth w (x = y) :=
    congrArg (truth w) <| decide_eq_decide.mpr <| IntType.ofInt_inj h hx hy
  have hn : truth w (BitVec.ofInt w x ≠ .ofInt w y) = truth w (x ≠ y) :=
    congrArg (truth w) <| decide_eq_decide.mpr <| not_congr <| IntType.ofInt_inj h hx hy
  unfold BinaryOp.eval
  rw [IntType.common_self, hx, hy]
  cases op
  case add => exact (BitVec.ofInt_add ..).symm
  case sub => exact ofInt_sub.symm
  case mul => exact (BitVec.ofInt_mul ..).symm
  case and => exact ofInt_land
  case or  => exact ofInt_lor
  case xor => exact ofInt_xor
  case eq  => exact hi.trans truth_eq_ofInt
  case ne  => exact hn.trans truth_eq_ofInt
  case shl => contradiction
  case shr => contradiction
  case logicalAnd => exact absurd rfl hl.left
  case logicalOr  => exact absurd rfl hl.right
  all_goals
    cases hu : t.unsigned
    case false =>
      obtain ⟨⟨hdiv, hmod⟩, ⟨hlt, hle⟩, hgt, hge⟩ := eval_signed h hu hx hy
      first
        | exact hdiv
        | exact hmod
        | exact hlt.trans truth_eq_ofInt
        | exact hle.trans truth_eq_ofInt
        | exact hgt.trans truth_eq_ofInt
        | exact hge.trans truth_eq_ofInt
    case true =>
      obtain ⟨⟨hdiv, hmod⟩, ⟨hlt, hle⟩, hgt, hge⟩ := eval_unsigned h hu hx hy
      first
        | exact hdiv
        | exact hmod
        | exact hlt.trans truth_eq_ofInt
        | exact hle.trans truth_eq_ofInt
        | exact hgt.trans truth_eq_ofInt
        | exact hge.trans truth_eq_ofInt

theorem not_overflow (h : 8 * t.size ≤ w) (hw : 0 < w) (hu : t.unsigned = false) (hx : t.wrap x = x)
    (hy : t.wrap y = y) (hd : t.Divides x y) :
    ¬(BitVec.ofInt w x = .intMin w ∧ BitVec.ofInt w y = -1) := by
  rintro ⟨hmin, hone⟩
  have hx := (IntType.toInt_ofInt h hu hx).symm
  have hy := (IntType.toInt_ofInt h hu hy).symm
  have hq := IntType.wrap_eq_self_iff.mp hd.right
  rw [hmin, BitVec.toInt_intMin_of_pos hw] at hx
  rw [hone, show (-1 : BitVec w) = .allOnes w from BitVec.neg_one_eq_allOnes, BitVec.toInt_allOnes, if_pos hw] at hy
  rw [hx, hy, Int.tdiv_neg, Int.tdiv_one, neg_neg, hu, if_neg (by decide)] at hq
  have hm : t.modulus ≤ 2 ^ w := IntType.modulus_eq ▸ Nat.pow_le_pow_right Nat.two_pos h
  have hp : 2 ^ w = 2 ^ (w - 1) * 2 := by rw [←Nat.pow_succ, Nat.succ_eq_add_one, Nat.sub_add_cancel hw]
  have hm : (t.modulus : Int) ≤ 2 ^ (w - 1) * 2 := by exact_mod_cast hm.trans_eq hp
  omega

theorem defined_instruction (h : 8 * t.size ≤ w) (hw : 0 < w) (hx : t.wrap x = x) (hy : t.wrap y = y)
    (hs : op.IsShift = false) (hd : op = .div ∨ op = .mod → t.Divides x y) :
    (instruction t.unsigned op).Defined (BitVec.ofInt w x) (.ofInt w y) := by
  cases op
  case div =>
    have hd := hd <| .inl rfl
    have hz := mt (IntType.ofInt_eq_zero_iff h hy).mp hd.left
    cases hu : t.unsigned
    case false => exact ⟨hz, not_overflow h hw hu hx hy hd⟩
    case true  => exact hz
  case mod =>
    have hd := hd <| .inr rfl
    have hz := mt (IntType.ofInt_eq_zero_iff h hy).mp hd.left
    cases hu : t.unsigned
    case false => exact ⟨hz, not_overflow h hw hu hx hy hd⟩
    case true  => exact hz
  case shl => contradiction
  case shr => contradiction
  all_goals cases t.unsigned <;> trivial

theorem eval_shift (h : 8 * t.size ≤ w) (hx : t.wrap x = x) (hy : 0 ≤ y) (hyw : y < w) (hs : op.IsShift) :
    (instruction t.unsigned op).eval (BitVec.ofInt w x) (.ofInt w y) = .ofInt w (op.eval t u x y) := by
  have hn : (BitVec.ofInt w y).toNat = y.toNat := by
    have hp : w < 2 ^ w := Nat.lt_two_pow_self
    rw [BitVec.toNat_ofInt, Int.emod_eq_of_lt hy (by omega)]
  cases op
  case shl =>
    rw [instruction, BinOp.eval, hn, ofInt_shiftLeft]
    rfl
  case shr =>
    cases hu : t.unsigned
    case false =>
      rw [instruction, if_neg (by decide), BinOp.eval, hn, BitVec.sshiftRight, IntType.toInt_ofInt h hu hx,
        Int.shiftRight_eq_div_pow]
      norm_cast
    case true =>
      have hx := IntType.toNat_ofInt h hu hx
      rw [instruction, if_pos rfl, BinOp.eval, hn, BinaryOp.eval]
      generalize BitVec.ofInt w x = a at *
      subst hx
      have he : (a.toNat : Int) / 2 ^ y.toNat = (a.toNat / 2 ^ y.toNat : Nat) := by norm_cast
      refine BitVec.eq_of_toNat_eq ?_
      rw [he, BitVec.ofInt_natCast, BitVec.toNat_ofNat, BitVec.toNat_ushiftRight, Nat.shiftRight_eq_div_pow]
      exact (Nat.mod_eq_of_lt <| (Nat.div_le_self ..).trans_lt a.isLt).symm
  all_goals contradiction

end Hcc
