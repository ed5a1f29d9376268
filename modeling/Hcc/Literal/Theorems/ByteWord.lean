import Hcc.Library.Digits
import Hcc.Literal.Basic
import Mathlib.Data.Int.ModEq
import Mathlib.Tactic.Linarith
import Mathlib.Tactic.LinearCombination
import Mathlib.Tactic.Ring

open Digits

namespace Hcc

variable {as bs bytes : List Int}

-- The arithmetic on byte words is carry propagation over a digit string that is not yet proper.

theorem byteWordAddSmallCarry_eq : byteWordAddSmallCarry c bytes = propagate 256 c bytes := by
  induction bytes generalizing c <;> simp_all [byteWordAddSmallCarry, propagate]

theorem byteWordMulSmall_eq : byteWordMulSmall f bytes = propagate 256 0 (bytes.map (· * f)) := by
  unfold byteWordMulSmall
  generalize (0 : Int) = c
  induction bytes generalizing c <;> simp_all [byteWordMulSmallCarry, propagate]

theorem constWordAdd_eq : constWordAdd as bs = propagate 256 0 (List.zipWith (· + ·) as bs) := by
  unfold constWordAdd
  generalize (0 : Int) = c
  induction as generalizing bs c <;> cases bs <;> simp_all [constWordAdd.add, propagate]

theorem constWordNegate_eq :
    constWordNegate bytes = propagate 256 1 (bytes.map (256 - 1 - ·)) := by
  simp [constWordNegate, byteWordAddSmallCarry_eq]

theorem intBytes_eq : intBytes n x = propagate 256 x (List.replicate n 0) := by
  induction n generalizing x <;> simp_all [intBytes, propagate, List.replicate_succ]

theorem byteBits_eq : constWordDivide.byteBits n x = bits n x := by
  induction n generalizing x <;>
    simp_all [constWordDivide.byteBits, bits, propagate, List.replicate_succ]

@[simp]
theorem length_byteWordAddSmallCarry : (byteWordAddSmallCarry c bytes).length = bytes.length := by
  simp [byteWordAddSmallCarry_eq]

@[simp]
theorem length_byteWordMulSmall : (byteWordMulSmall f bytes).length = bytes.length := by
  simp [byteWordMulSmall_eq]

@[simp]
theorem length_constWordAdd : (constWordAdd as bs).length = min as.length bs.length := by
  simp [constWordAdd_eq]

@[simp]
theorem length_constWordNegate : (constWordNegate bytes).length = bytes.length := by
  simp [constWordNegate_eq]

@[simp]
theorem length_intBytes : (intBytes n x).length = n := by
  simp [intBytes_eq]

theorem proper_byteWordAddSmallCarry : Proper 256 (byteWordAddSmallCarry c bytes) :=
  byteWordAddSmallCarry_eq ▸ proper_propagate (by decide)

theorem proper_byteWordMulSmall : Proper 256 (byteWordMulSmall f bytes) :=
  byteWordMulSmall_eq ▸ proper_propagate (by decide)

theorem proper_constWordAdd : Proper 256 (constWordAdd as bs) :=
  constWordAdd_eq ▸ proper_propagate (by decide)

theorem proper_constWordNegate : Proper 256 (constWordNegate bytes) :=
  constWordNegate_eq ▸ proper_propagate (by decide)

theorem proper_intBytes : Proper 256 (intBytes n x) :=
  intBytes_eq ▸ proper_propagate (by decide)

theorem proper_zeros : Proper 256 (as.map fun _ => 0) := by
  simp [Proper]

theorem value_byteWordAddSmallCarry :
    value 256 (byteWordAddSmallCarry c bytes) = (value 256 bytes + c) % 256 ^ bytes.length := by
  rw [byteWordAddSmallCarry_eq, value_propagate (by decide)]

theorem value_byteWordMulSmall :
    value 256 (byteWordMulSmall f bytes) = (f * value 256 bytes) % 256 ^ bytes.length := by
  rw [byteWordMulSmall_eq, value_propagate (by decide), value_map_mul, add_zero, List.length_map]

theorem value_constWordAdd (h : as.length = bs.length) :
    value 256 (constWordAdd as bs) = (value 256 as + value 256 bs) % 256 ^ as.length := by
  rw [constWordAdd_eq, value_propagate (by decide), value_zipWith_add h, add_zero,
    List.length_zipWith, ←h, min_self]

theorem value_constWordNegate :
    value 256 (constWordNegate bytes) = -value 256 bytes % 256 ^ bytes.length := by
  rw [constWordNegate_eq, value_propagate (by decide), value_map_complement, List.length_map,
    show (256 : Int) ^ bytes.length - 1 - value 256 bytes + 1
      = -value 256 bytes + 256 ^ bytes.length * 1 by ring, Int.add_mul_emod_self_left]

theorem value_intBytes : value 256 (intBytes n x) = x % 256 ^ n := by
  rw [intBytes_eq, value_propagate (by decide), value_replicate_zero, zero_add,
    List.length_replicate]

theorem value_zeros : value 256 (as.map fun _ => 0) = 0 := by
  induction as <;> simp_all

-- The low part of a word represents its value modulo a smaller power of the base.
theorem value_take (h : Proper 256 bytes) (hn : n ≤ bytes.length) :
    value 256 (bytes.take n) = value 256 bytes % 256 ^ n := by
  have hl : (bytes.take n).length = n := by simp [hn]
  conv_rhs => rw [←List.take_append_drop n bytes]
  rw [value_append, hl, Int.add_mul_emod_self_left]
  have := Proper.value_emod (by decide) (h.take (n := n))
  rwa [hl, eq_comm] at this

theorem value_bounds (h : Proper 256 bytes) :
    0 ≤ value 256 bytes ∧ value 256 bytes < 256 ^ bytes.length :=
  ⟨h.value_nonneg, h.value_lt (by decide)⟩

theorem any_ne_zero (h : Proper 256 bytes) :
    bytes.any (· ≠ 0) = true ↔ value 256 bytes ≠ 0 := by
  induction bytes <;> simp at *
  case cons b bytes hi =>
    have := h.right.value_nonneg
    rw [hi h.right]
    omega

theorem constWordCompare_eq (ha : Proper 256 as) (hb : Proper 256 bs) (hl : as.length = bs.length) :
    constWordCompare as bs =
      if value 256 as < value 256 bs then -1
      else if value 256 as = value 256 bs then 0
      else 1 := by
  have h : as = bs ↔ value 256 as = value 256 bs :=
    ⟨fun h => h ▸ rfl, ha.eq_of_value_eq (by decide) hb hl⟩
  simp [constWordCompare, ha.reverse_lt_iff (by decide) hb hl, h]

theorem constWordCompare_nonneg_iff (ha : Proper 256 as) (hb : Proper 256 bs)
    (hl : as.length = bs.length) : constWordCompare as bs ≥ 0 ↔ value 256 bs ≤ value 256 as := by
  rw [constWordCompare_eq ha hb hl]
  split_ifs <;> omega

-- The highest byte of a word decides whether the word represents a negative number.
theorem constWordNegative_eq (h : Proper 256 bytes) :
    constWordNegative bytes = true ↔ 256 ^ bytes.length ≤ 2 * value 256 bytes := by
  rcases List.eq_nil_or_concat bytes with rfl | ⟨low, high, rfl⟩
  · simp [constWordNegative]
  · simp only [List.concat_eq_append] at *
    have hl : Proper 256 low := fun d hd => h d (by simp [hd])
    have ⟨h₀, hlt⟩ := value_bounds hl
    simp only [constWordNegative, List.reverse_append, List.reverse_singleton, List.singleton_append,
      decide_eq_true_eq, value_append, List.length_append, pow_add, value_cons, value_nil]
    generalize (256 : Int) ^ low.length = m at *
    simp
    constructor <;> intro hh
    · nlinarith
    · by_contra hc
      have : m * (high + 1) ≤ m * 128 := mul_le_mul_of_nonneg_left (by omega) (by omega)
      linarith

theorem constWordMultiply.length_go (ha : acc.length = as.length) (hs : shifted.length = as.length) :
    (go as shifted bs acc).length = as.length := by
  induction bs generalizing shifted acc <;> simp [go, ha]
  case cons hi => exact hi (by simp [ha, hs]) (by simp [hs])

theorem constWordMultiply.proper_go (h : Proper 256 acc) : Proper 256 (go as shifted bs acc) := by
  induction bs generalizing shifted acc
  case nil       => exact h
  case cons _ hi => exact hi proper_constWordAdd

theorem constWordMultiply.value_go (bs : List Int)
    (ha : r.length = as.length) (hs : w.length = as.length) (hw : Proper 256 w) :
    value 256 (go as w bs r) ≡ value 256 r + value 256 w * value 256 bs [ZMOD 256 ^ as.length] := by
  induction bs generalizing w r <;> simp only [go, value_nil, value_cons]
  case nil => simp
  case cons byte more hi =>
    have hw' : Proper 256 (0 :: w) := by simp [hw]
    have hn := hi (r := constWordAdd r (byteWordMulSmall byte w))
      (w := (0 :: w).take as.length) (by simp [ha, hs]) (by simp [hs]) hw'.take
    have h₁ : value 256 (constWordAdd r (byteWordMulSmall byte w)) ≡
        value 256 r + byte * value 256 w [ZMOD 256 ^ as.length] := by
      rw [value_constWordAdd (by simp [ha, hs]), value_byteWordMulSmall, ha, hs]
      exact (Int.mod_modEq ..).trans (Int.ModEq.rfl.add <| Int.mod_modEq ..)
    have h₂ : value 256 ((0 :: w).take as.length) ≡
        256 * value 256 w [ZMOD 256 ^ as.length] := by
      rw [value_take hw' (by simp [hs])]
      simpa using Int.mod_modEq ..
    have h := hn.trans <| h₁.add (h₂.mul_right _)
    rwa [show value 256 r + byte * value 256 w + 256 * value 256 w * value 256 more
      = value 256 r + value 256 w * (byte + 256 * value 256 more) by ring] at h

@[simp]
theorem length_constWordMultiply : (constWordMultiply as bs).length = as.length :=
  constWordMultiply.length_go (by simp) rfl

theorem proper_constWordMultiply : Proper 256 (constWordMultiply as bs) :=
  constWordMultiply.proper_go proper_zeros

theorem value_constWordMultiply (h : Proper 256 as) :
    value 256 (constWordMultiply as bs) ≡ value 256 as * value 256 bs [ZMOD 256 ^ as.length] := by
  have := constWordMultiply.value_go bs (r := as.map fun _ => 0) (by simp) rfl h
  rwa [value_zeros, zero_add] at this

-- Shifting a big-endian word to the right pushes the lowest bit of each byte into the next one.
theorem constWordRight.value_go (h : Proper 256 bytes) (hb : bytes ≠ []) :
    value 256 (go carry bytes).reverse =
      value 256 bytes.reverse / 2 + carry * 256 ^ (bytes.length - 1) := by
  induction bytes generalizing carry <;> simp only [go]
  case nil => contradiction
  case cons byte more hi =>
    cases more
    case nil => simp [go, add_comm]
    case cons next more =>
      have hl : (go (byte % 2 * 128) (next :: more)).length = (next :: more).length := by
        generalize byte % 2 * 128 = c
        generalize next :: more = ds
        induction ds generalizing c <;> simp_all [go]
      simp only [List.reverse_cons (a := byte), @List.reverse_cons _ _ (go ..), value_append,
        hi h.tail (by simp), value_cons, value_nil, List.length_reverse, hl]
      simp only [List.length_cons, Nat.add_sub_cancel, pow_succ]
      generalize value 256 (next :: more).reverse = v
      generalize (256 : Int) ^ more.length = m
      have hd := Int.emod_add_mul_ediv byte 2
      have hq : (v + m * 256 * (byte + 256 * 0)) / 2 = v / 2 + m * 128 * byte := by
        rw [show v + m * 256 * (byte + 256 * 0) = v + 2 * (m * 128 * byte) by ring,
          Int.add_mul_ediv_left _ _ two_ne_zero]
      rw [hq]
      linear_combination 128 * m * hd

theorem constWordRight.length_go : (go carry bytes).length = bytes.length := by
  induction bytes generalizing carry <;> simp_all [go]

theorem constWordRight.proper_go (h : Proper 256 bytes) (hc : carry = 0 ∨ carry = 128) :
    Proper 256 (go carry bytes) := by
  induction bytes generalizing carry <;> simp [go]
  case cons byte more hi =>
    have ⟨_, h'⟩ := proper_cons.mp h
    exact ⟨by omega, hi h' (by omega)⟩

@[simp]
theorem length_constWordRight : (constWordRight fill bytes).length = bytes.length := by
  simp [constWordRight, constWordRight.length_go]

theorem proper_constWordRight (h : Proper 256 bytes) (hf : fill = 0 ∨ fill = 128) :
    Proper 256 (constWordRight fill bytes) :=
  (constWordRight.proper_go h.reverse hf).reverse

theorem value_constWordRight (h : Proper 256 bytes) (hb : bytes ≠ []) :
    value 256 (constWordRight fill bytes) =
      value 256 bytes / 2 + fill * 256 ^ (bytes.length - 1) := by
  simp [constWordRight, constWordRight.value_go h.reverse (by simpa)]

-- The byte-wise long division follows the long division of the represented values: the remainder
-- has one byte more than the divisor, so doubling it does not overflow, and the quotient of the bits
-- consumed so far fits into the dividend's width.
theorem constWordDivide.value_go (as bs : List Int)
    (hq : q.length = as.length) (hr : r.length = as.length + 1)
    (hd : d.length = as.length + 1) (hdp : Proper 256 d) (hqp : Proper 256 q)
    (hrp : Proper 256 r) (hrd : value 256 r < value 256 d)
    (hdv : value 256 d < 256 ^ as.length) (hbs : Proper 2 bs)
    (hb : value 256 q * 2 ^ bs.length + (2 ^ bs.length - 1) < 256 ^ as.length) :
    let result := longDivide (value 256 d) bs (value 256 q) (value 256 r)
    value 256 (go as d bs q r).1 = result.1 ∧ value 256 (go as d bs q r).2 = result.2 := by
  induction bs generalizing q r <;> simp only [go, longDivide]
  case nil =>
    refine ⟨trivial, ?_⟩
    rw [value_take hrp (by simp [hr]), Int.emod_eq_of_lt hrp.value_nonneg (hrd.trans hdv)]
  case cons bit more hi =>
    obtain ⟨⟨hb₀, hb₁⟩, hbs'⟩ := proper_cons.mp hbs
    have hr₀ := hrp.value_nonneg
    have hq₀ := hqp.value_nonneg
    have htrial : value 256 (byteWordAddSmallCarry bit (byteWordMulSmall 2 r)) =
        2 * value 256 r + bit := by
      rw [value_byteWordAddSmallCarry, value_byteWordMulSmall, length_byteWordMulSmall, hr, pow_succ,
        Int.emod_eq_of_lt (a := 2 * _) (by omega) (by omega),
        Int.emod_eq_of_lt (by omega) (by omega)]
    have hquot (fits : Int) (h₀ : 0 ≤ fits) (h₁ : fits ≤ 1) :
        value 256 (byteWordAddSmallCarry fits (byteWordMulSmall 2 q)) =
          2 * value 256 q + fits := by
      have : (1 : Int) ≤ 2 ^ more.length := one_le_pow₀ one_le_two
      have : 2 * value 256 q ≤ value 256 q * 2 ^ (more.length + 1) := by
        rw [pow_succ]; nlinarith
      simp only [List.length_cons, pow_succ] at *
      rw [value_byteWordAddSmallCarry, value_byteWordMulSmall, length_byteWordMulSmall, hq,
        Int.emod_eq_of_lt (a := 2 * _) (by omega) (by omega),
        Int.emod_eq_of_lt (by omega) (by omega)]
    have hcmp := @constWordCompare_nonneg_iff _ d
      (@proper_byteWordAddSmallCarry (byteWordMulSmall 2 r) bit) hdp
      (by simp [hr, hd])
    rw [htrial] at hcmp
    have hm : (1 : Int) ≤ 2 ^ more.length := one_le_pow₀ one_le_two
    simp only [List.length_cons, pow_succ] at hb
    by_cases hf : value 256 d ≤ 2 * value 256 r + bit
    case pos =>
      have hsub : value 256 (constWordAdd (byteWordAddSmallCarry bit (byteWordMulSmall 2 r))
          (constWordNegate d)) = 2 * value 256 r + bit - value 256 d := by
        rw [value_constWordAdd (by simp [hr, hd]), htrial, value_constWordNegate, hd,
          length_byteWordAddSmallCarry, length_byteWordMulSmall, hr, Int.add_emod_emod,
          ←sub_eq_add_neg, pow_succ, Int.emod_eq_of_lt (by omega) (by omega)]
      have hq' := hquot 1 (by decide) (by decide)
      have hn := hi (q := byteWordAddSmallCarry 1 (byteWordMulSmall 2 q))
        (r := constWordAdd (byteWordAddSmallCarry bit (byteWordMulSmall 2 r))
          (constWordNegate d))
        (by simp [hq]) (by simp [hr, hd]) proper_byteWordAddSmallCarry proper_constWordAdd
        (by rw [hsub]; omega) hbs' (by rw [hq']; linarith)
      simp only [hcmp, hf, decide_true, if_true, boolToInt]
      rwa [hsub, hq'] at hn
    case neg =>
      have hq' := hquot 0 (by decide) (by decide)
      have hn := hi (q := byteWordAddSmallCarry 0 (byteWordMulSmall 2 q))
        (by simp [hq]) (by simp [hr]) proper_byteWordAddSmallCarry
        (@proper_byteWordAddSmallCarry (byteWordMulSmall 2 r) bit)
        (by rw [htrial]; omega) hbs' (by rw [hq']; linarith)
      simp only [hcmp, hf, decide_false, Bool.false_eq_true, if_false, boolToInt]
      rwa [htrial, hq', add_zero] at hn

theorem constWordDivide.length_go
    (hq : quotient.length = as.length) (hr : remainder.length = as.length + 1)
    (hd : divisor.length = as.length + 1) :
    (go as divisor bs quotient remainder).1.length = as.length ∧
      (go as divisor bs quotient remainder).2.length = as.length := by
  induction bs generalizing quotient remainder <;> simp only [go]
  case nil       => simp [hq, hr]
  case cons _ hi => refine hi (by simp [hq]) ?_; split <;> simp [hr, hd]

theorem constWordDivide.proper_go (hq : Proper 256 quotient) (hr : Proper 256 remainder) :
    Proper 256 (go as divisor bs quotient remainder).1 ∧
      Proper 256 (go as divisor bs quotient remainder).2 := by
  induction bs generalizing quotient remainder <;> simp only [go]
  case nil       => exact ⟨hq, hr.take⟩
  case cons _ hi =>
    refine hi proper_byteWordAddSmallCarry ?_
    split
    · exact proper_constWordAdd
    · exact proper_byteWordAddSmallCarry

theorem proper_flatMap_bits (bytes : List Int) : Proper 2 (bytes.flatMap (bits 8)) := by
  intro d hd
  have ⟨_, _, hd⟩ := List.mem_flatMap.mp hd
  exact proper_bits d hd

theorem length_flatMap_bits : (bytes.flatMap (bits 8)).length = 8 * bytes.length := by
  induction bytes <;> simp_all
  omega

theorem value_flatMap_bits (h : Proper 256 bytes) :
    value 2 (bytes.flatMap (bits 8)) = value 256 bytes := by
  induction bytes <;> simp at *
  case cons byte more hi =>
    rw [value_append, value_bits, hi h.right, length_bits,
      Int.emod_eq_of_lt h.left.left (by omega)]
    norm_num

-- The byte-wise long division is exact.
theorem value_constWordDivide (ha : Proper 256 as) (hb : Proper 256 bs)
    (hl : as.length = bs.length) (h₀ : value 256 bs ≠ 0) :
    value 256 (constWordDivide as bs).1 = value 256 as / value 256 bs ∧
      value 256 (constWordDivide as bs).2 = value 256 as % value 256 bs := by
  have ⟨hb₀, hblt⟩ := value_bounds hb
  have hd : value 256 (bs ++ [0]) = value 256 bs := by simp [value_append]
  have hz : value 256 ((as.map fun _ => (0 : Int)) ++ [0]) = 0 := by
    simp [value_append, value_replicate_zero]
  have hf : constWordDivide.byteBits 8 = bits 8 := funext fun _ => byteBits_eq
  have h := constWordDivide.value_go as (as.flatMap (bits 8)).reverse (d := bs ++ [0]) (q := as.map fun _ => 0)
    (r := (as.map fun _ => 0) ++ [0]) (by simp) (by simp) (by simp [hl])
    (hb.append (by simp)) proper_zeros (proper_zeros.append (by simp))
    (by rw [hz, hd]; omega) (by rwa [hd, hl]) (proper_flatMap_bits as).reverse
    (by
      have : (2 : Int) ^ (8 * as.length) = 256 ^ as.length := by rw [pow_mul]; norm_num
      rw [value_zeros, List.length_reverse, length_flatMap_bits, this]
      omega)
  rw [value_zeros, hz, hd, longDivide_eq (proper_flatMap_bits as).reverse (by omega),
    List.reverse_reverse, value_flatMap_bits ha] at h
  simpa [constWordDivide, hf] using h

theorem length_constWordDivide (hl : as.length = bs.length) :
    (constWordDivide as bs).1.length = as.length ∧ (constWordDivide as bs).2.length = as.length :=
  constWordDivide.length_go (by simp) (by simp) (by simp [hl])

theorem proper_constWordDivide :
    Proper 256 (constWordDivide as bs).1 ∧ Proper 256 (constWordDivide as bs).2 :=
  constWordDivide.proper_go proper_zeros (proper_zeros.append (by simp))

end Hcc
