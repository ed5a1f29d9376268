import Mathlib.Data.Int.Bitwise
import Mathlib.Data.Int.ModEq
import Mathlib.Tactic.Linarith
import Mathlib.Tactic.Ring

-- The integer types of C and the values of its integer operators, over mathematical integers.
namespace CInteger

-- Integer types are determined by their width in bytes and their signedness. The integer rank of a
-- type is given by its width.
@[ext]
structure IntType where
  size     : Nat
  unsigned : Bool
deriving DecidableEq, Repr

namespace IntType

variable {s t : IntType} {x y : Int}

def int : IntType where
  size     := 4
  unsigned := false

def modulus (t : IntType) : Nat :=
  256 ^ t.size

-- The conversion of a mathematical value to a given type.
def wrap (t : IntType) (x : Int) : Int :=
  if t.unsigned then x % t.modulus else x.bmod t.modulus

theorem modulus_pos : 0 < t.modulus :=
  Nat.pow_pos (by decide)

theorem modulus_le (h : s.size ≤ t.size) : s.modulus ≤ t.modulus :=
  Nat.pow_le_pow_right (by decide) h

@[simp]
theorem wrap_emod : t.wrap x % t.modulus = x % t.modulus := by
  simp only [wrap]
  split
  · exact Int.emod_emod_of_dvd _ dvd_rfl
  · exact Int.bmod_emod

theorem wrap_modEq : t.wrap x ≡ x [ZMOD t.modulus] :=
  wrap_emod

theorem wrap_eq_iff : t.wrap x = t.wrap y ↔ x ≡ y [ZMOD t.modulus] where
  mp h  := by simpa [Int.ModEq] using congrArg (· % (t.modulus : Int)) h
  mpr h := by
    simp only [wrap, Int.bmod_def]
    rw [h.eq]

theorem wrap_congr (h : x ≡ y [ZMOD t.modulus]) : t.wrap x = t.wrap y :=
  wrap_eq_iff.mpr h

@[simp]
theorem wrap_wrap : t.wrap (t.wrap x) = t.wrap x :=
  wrap_congr wrap_modEq

@[simp]
theorem wrap_zero : t.wrap 0 = 0 := by
  simp [wrap]

theorem abs_wrap_lt : |t.wrap x| < t.modulus := by
  have h := @modulus_pos t
  simp only [wrap, abs_lt]
  split
  · have := Int.emod_nonneg x (b := t.modulus) (by omega)
    have := Int.emod_lt_of_pos x (b := t.modulus) (by omega)
    omega
  · have := Int.le_bmod (x := x) h
    have := Int.bmod_lt (x := x) h
    omega

theorem wrap_eq_self_iff :
    t.wrap x = x ↔
      if t.unsigned then 0 ≤ x ∧ x < t.modulus else -t.modulus ≤ 2 * x ∧ 2 * x < t.modulus := by
  have h := @modulus_pos t
  simp only [wrap]
  split
  · rw [Int.emod_eq_iff (by omega)]
    simp
  · constructor <;> intro hx
    case mp =>
      have := Int.le_bmod (x := x) h
      have := Int.bmod_lt (x := x) h
      omega
    case mpr =>
      rw [Int.bmod_def]
      by_cases h₀ : 0 ≤ x
      case pos => rw [Int.emod_eq_of_lt h₀ (by omega), if_pos (by omega)]
      case neg =>
        rw [←Int.add_emod_right, Int.emod_eq_of_lt (by omega) (by omega), if_neg (by omega)]
        omega

theorem wrap_ediv_two (h : t.wrap x = x) : t.wrap (x / 2) = x / 2 := by
  rw [wrap_eq_self_iff] at *
  split at * <;> simp_all <;> omega

-- Converting a value of a type to a type that is at least as wide does not lose any information.
theorem wrap_wrap_eq_zero_iff (h : s.size ≤ t.size) : t.wrap (s.wrap x) = 0 ↔ s.wrap x = 0 := by
  constructor
  case mpr => intro h; simp [h]
  case mp =>
    intro hz
    have hd : (t.modulus : Int) ∣ s.wrap x := by
      apply Int.dvd_of_emod_eq_zero
      rw [← wrap_emod, hz, Int.zero_emod]
    have hl : |s.wrap x| < t.modulus := abs_wrap_lt.trans_le <| Int.ofNat_le.mpr (modulus_le h)
    exact Int.eq_zero_of_abs_lt_dvd hd hl

-- The usual arithmetic conversions, on promoted types.
def common (s t : IntType) : IntType :=
  if s.unsigned = t.unsigned then (if t.size ≤ s.size then s else t)
  else
    let (signed, unsigned) := if s.unsigned then (t, s) else (s, t)
    if signed.size ≤ unsigned.size then unsigned else signed

theorem size_common : (common s t).size = max s.size t.size := by
  simp only [common]
  split_ifs <;> simp_all <;> omega

theorem unsigned_common :
    (common s t).unsigned =
      if s.size = t.size then s.unsigned || t.unsigned
      else if s.size > t.size then s.unsigned
      else t.unsigned := by
  rcases s with ⟨m, _ | _⟩ <;> rcases t with ⟨n, _ | _⟩ <;> simp [common] <;>
    split_ifs <;> simp_all <;> omega

end IntType

inductive BinaryOp
  | add | sub | mul | div | mod
  | shl | shr
  | eq | ne | lt | le | gt | ge
  | and | or | xor
  | logicalAnd | logicalOr
deriving DecidableEq, Repr

namespace BinaryOp

def IsShift : BinaryOp → Bool
  | shl | shr => true
  | _         => false

def IsTest : BinaryOp → Bool
  | eq | ne | lt | le | gt | ge | logicalAnd | logicalOr => true
  | _                                                    => false

def resultType (op : BinaryOp) (s t : IntType) : IntType :=
  if op.IsShift then s else if op.IsTest then .int else s.common t

-- The behavior of an operator is undefined for a zero divisor and for a shift count that is
-- negative or not less than the width of the shifted value.
def Defined (op : BinaryOp) (s : IntType) (y : Int) : Prop :=
  match op with
  | div | mod => y ≠ 0
  | shl | shr => 0 ≤ y ∧ y < 8 * s.size
  | _         => True

instance : Decidable (Defined op s y) := by
  unfold Defined
  split <;> infer_instance

def ofBool (b : Bool) : Int :=
  if b then 1 else 0

-- The mathematical result of an operator, before it is converted to the result type.
def eval (op : BinaryOp) (s t : IntType) (x y : Int) : Int :=
  let x' := (s.common t).wrap x
  let y' := (s.common t).wrap y
  match op with
  | add        => x' + y'
  | sub        => x' - y'
  | mul        => x' * y'
  | div        => x'.tdiv y'
  | mod        => x'.tmod y'
  | shl        => x * 2 ^ y.toNat
  | shr        => x / 2 ^ y.toNat
  | eq         => ofBool (x' = y')
  | ne         => ofBool (x' ≠ y')
  | lt         => ofBool (x' < y')
  | le         => ofBool (x' ≤ y')
  | gt         => ofBool (x' > y')
  | ge         => ofBool (x' ≥ y')
  | and        => x'.land y'
  | or         => x'.lor y'
  | xor        => x'.xor y'
  | logicalAnd => ofBool (x ≠ 0 && y ≠ 0)
  | logicalOr  => ofBool (x ≠ 0 || y ≠ 0)

-- The value of an operator, as it is represented in the result type.
def value (op : BinaryOp) (s t : IntType) (x y : Int) : Int :=
  (op.resultType s t).wrap (op.eval s t x y)

end BinaryOp

inductive UnaryOp
  | neg
  | compl
deriving DecidableEq, Repr

def UnaryOp.eval : UnaryOp → Int → Int
  | neg,   x => -x
  | compl, x => -x - 1

-- Truncated division by the division of the magnitudes.
theorem tdiv_eq_abs (x y : Int) :
    x.tdiv y = if decide (x < 0) != decide (y < 0) then -(|x| / |y|) else |x| / |y| := by
  have h {m n : Int} (hm : 0 ≤ m) : m.tdiv n = m / n := Int.tdiv_eq_ediv_of_nonneg hm
  by_cases hx : x < 0 <;> by_cases hy : y < 0 <;> simp [hx, hy]
  · rw [abs_of_neg hx, abs_of_neg hy, ←h (by omega), Int.neg_tdiv, Int.tdiv_neg, neg_neg]
  · rw [abs_of_neg hx, abs_of_nonneg (by omega), ←h (by omega), Int.neg_tdiv, neg_neg]
  · rw [abs_of_nonneg (by omega), abs_of_neg hy, ←h (by omega), Int.tdiv_neg, neg_neg]
  · rw [abs_of_nonneg (by omega), abs_of_nonneg (by omega), h (by omega)]

theorem tmod_eq_abs (x y : Int) : x.tmod y = if x < 0 then -(|x| % |y|) else |x| % |y| := by
  have h {m n : Int} (hm : 0 ≤ m) : m.tmod n = m % n := Int.tmod_eq_emod_of_nonneg hm
  rw [Int.emod_abs]
  split
  case isTrue hx  => rw [abs_of_neg hx, ←h (by omega), Int.neg_tmod, neg_neg]
  case isFalse hx => rw [abs_of_nonneg (by omega), h (by omega)]

-- The quotient and the remainder of two integers determine the dividend.
theorem div_mul_add_mod (t : IntType) (x y : Int) :
    t.wrap (t.wrap (x.tdiv y) * y + t.wrap (x.tmod y)) = t.wrap x := by
  have h : t.wrap (x.tdiv y) * y + t.wrap (x.tmod y) ≡ x.tdiv y * y + x.tmod y [ZMOD t.modulus] :=
    (IntType.wrap_modEq.mul_right _).add IntType.wrap_modEq
  rw [IntType.wrap_congr h, mul_comm, Int.mul_tdiv_add_tmod]

end CInteger
