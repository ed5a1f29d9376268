import Hcc.Library.Bitwise
import Hcc.Literal.Constant
import Hcc.Literal.Theorems.ByteWord

open Digits CInteger

namespace Hcc

variable {a b c : Constant} {s t : IntType} {x y : Int}

theorem isBitwise_bitFoldInt : Bitwise.IsBitwise (bitFoldInt op) op := by
  intro x y
  have hl : boolToInt (op (x % 2 ≠ 0) (y % 2 ≠ 0)) = Bitwise.lowBit op x y := by
    simp only [Bitwise.lowBit]
    split <;> simp_all [boolToInt]
  conv_lhs => unfold bitFoldInt
  split
  case isFalse => rw [hl]
  case isTrue h =>
    have hx : x / 2 = x := by omega
    have hy : y / 2 = y := by omega
    have hb : bitFoldInt op x y = if op (x = -1) (y = -1) then -1 else 0 := by
      unfold bitFoldInt
      rw [if_pos h]
    have hm {z : Int} (hz : z = 0 ∨ z = -1) : decide (z % 2 ≠ 0) = decide (z = -1) := by
      rcases hz with rfl | rfl <;> rfl
    rw [hx, hy, ←hl, hb, hm h.left, hm h.right]
    cases op (x = -1) (y = -1) <;> rfl

namespace Constant

@[simp]
theorem type_mk : (Constant.mk n u word).type = ⟨n, u⟩ := rfl

theorem WellFormed.modulus (h : c.WellFormed) : (c.type.modulus : Int) = 256 ^ c.bytes.length := by
  simp [IntType.modulus, type, h.length]

theorem WellFormed.word_bounds (h : c.WellFormed) :
    0 ≤ Digits.value 256 c.bytes ∧ Digits.value 256 c.bytes < c.type.modulus :=
  h.modulus ▸ value_bounds h.proper

theorem value_modEq : c.value ≡ Digits.value 256 c.bytes [ZMOD c.type.modulus] :=
  IntType.wrap_modEq

theorem abs_value_lt : |c.value| < c.type.modulus :=
  IntType.abs_wrap_lt

@[simp]
theorem wrap_value : c.type.wrap c.value = c.value :=
  IntType.wrap_wrap

theorem represents_self (h : c.WellFormed) : c.Represents c.type c.value where
  wellFormed := h
  type       := rfl
  value      := wrap_value.symm

-- A word of the right length represents every value that is congruent to the word's value.
theorem represents_of_word {w : List Int} (hl : w.length = t.size) (hp : Proper 256 w)
    (hx : Digits.value 256 w ≡ x [ZMOD t.modulus]) :
    (Constant.mk t.size t.unsigned w).Represents t x where
  wellFormed := ⟨hl, hp⟩
  type       := rfl
  value      := IntType.wrap_congr hx

theorem Standard.pos (h : c.Standard) : 0 < c.size := by
  rcases h with h | h <;> omega

theorem Standard.lt_modulus (ha : a.Standard) (hb : b.Standard) :
    (8 * a.size : Int) < b.type.modulus := by
  rcases ha with h | h <;> rcases hb with h' | h' <;> simp [IntType.modulus, type, h, h']

theorem Represents.congr (h : c.Represents t x) (hx : t.wrap x = t.wrap y) : c.Represents t y :=
  { h with value := h.value.trans hx }

-- The value of a constant is the value of its word, less the modulus if it is negative.
theorem WellFormed.value_eq (h : c.WellFormed) :
    c.value = Digits.value 256 c.bytes - if constNegative c then (c.type.modulus : Int) else 0 := by
  have ⟨h₀, hm⟩ := h.word_bounds
  have hn := constWordNegative_eq h.proper
  rw [←h.modulus] at hn
  simp only [Constant.value, IntType.wrap, constNegative, Int.bmod_def]
  rw [Int.emod_eq_of_lt h₀ hm]
  change _ = _ - if (!c.type.unsigned && _) = true then _ else _
  cases c.type.unsigned <;> simp [hn]
  split <;> split <;> omega

theorem WellFormed.negative_iff (h : c.WellFormed) : constNegative c = true ↔ c.value < 0 := by
  have ⟨h₀, hm⟩ := h.word_bounds
  rw [h.value_eq]
  split <;> simp_all

theorem WellFormed.true_iff (h : c.WellFormed) : constantTrue c = true ↔ c.value ≠ 0 := by
  have ⟨h₀, hm⟩ := h.word_bounds
  have hz := IntType.wrap_eq_iff (t := c.type) (x := Digits.value 256 c.bytes) (y := 0)
  rw [IntType.wrap_zero, Int.ModEq, Int.zero_emod, Int.emod_eq_of_lt h₀ hm] at hz
  rw [constantTrue, any_ne_zero h.proper, Constant.value, ne_eq, ne_eq, hz]

-- Negating the word of a negative constant yields the magnitude of its value.
theorem WellFormed.magnitude (h : c.WellFormed) :
    Digits.value 256 (if constNegative c then constWordNegate c.bytes else c.bytes) = |c.value| := by
  have ⟨h₀, hm⟩ := h.word_bounds
  have hn := h.negative_iff
  have hv := h.value_eq
  split
  case isTrue hc =>
    have hn := hn.mp hc
    simp only [hc, if_true] at hv
    have := abs_lt.mp (abs_value_lt (c := c))
    rw [value_constWordNegate, ←h.modulus, abs_of_neg hn]
    rw [show -Digits.value 256 c.bytes = -c.value + c.type.modulus * (-1) by rw [hv]; ring,
      Int.add_mul_emod_self_left, Int.emod_eq_of_lt (by omega) (by omega)]
  case isFalse hc =>
    simp only [hc, Bool.false_eq_true, if_false, false_iff, sub_zero] at hn hv
    rw [abs_of_nonneg (by omega), hv]

end Constant

open Constant

section Conversions

-- Sign extension does not change the represented value, and truncation preserves it modulo the
-- modulus of the narrower type.
theorem constantConvert_represents (h : c.WellFormed) :
    (constantConvert t.size t.unsigned c).Represents t c.value := by
  have hf : Proper 256 (List.replicate (t.size - c.bytes.length)
      (if constNegative c then (255 : Int) else 0)) := by
    apply proper_replicate <;> split <;> decide
  apply represents_of_word
  case hl => simp; omega
  case hp => exact (h.proper.append hf).take
  case hx =>
    rw [value_take (h.proper.append hf) (by simp; omega), value_append]
    simp only [IntType.modulus, Nat.cast_pow, Nat.cast_ofNat]
    refine (Int.mod_modEq ..).trans ?_
    rw [h.value_eq, h.modulus]
    split
    case isFalse => simp [value_replicate_zero]
    case isTrue =>
      rw [show (255 : Int) = 256 - 1 by rfl, value_replicate_max, Int.modEq_iff_dvd]
      have hd : (256 : Int) ^ t.size ∣ 256 ^ (c.bytes.length + (t.size - c.bytes.length)) :=
        pow_dvd_pow _ (by omega)
      rw [pow_add] at hd
      have ⟨k, hk⟩ := hd
      exists -k
      linear_combination -hk

theorem constantUnary_represents (h : c.WellFormed) (ho : unaryOp? name = some op) :
    (constantUnary name c).Represents c.type (op.eval c.value) := by
  have hv := value_modEq (c := c)
  unfold unaryOp? at ho
  split at ho <;> cases ho
  case h_1 =>
    refine represents_of_word (t := c.type) (w := constWordNegate c.bytes)
      (by simp [h.length, type]) proper_constWordNegate ?_
    rw [value_constWordNegate, ←h.modulus]
    exact (Int.mod_modEq ..).trans hv.symm.neg
  case h_2 =>
    refine represents_of_word (t := c.type) (w := c.bytes.map (255 - ·))
      (by simp [h.length, type]) ?_ ?_
    · intro d hd
      have ⟨b, hb, hd⟩ := List.mem_map.mp hd
      have := h.proper b hb
      omega
    · have : value 256 (c.bytes.map _) = _ := value_map_complement
      rw [show (255 : Int) = 256 - 1 by rfl, this, ←h.modulus, UnaryOp.eval, Int.modEq_iff_dvd]
      have ⟨k, hk⟩ := hv.dvd
      exists k - 1
      linear_combination hk

-- The value of `constantToInt` is the represented value.
theorem constantToInt_eq (h : c.WellFormed) : constantToInt c = c.value := by
  have hf (word : List Int) : word.foldr (fun byte acc => byte + 256 * acc) 0 = value 256 word := by
    induction word <;> simp_all
  have hm := h.magnitude
  have hn := h.negative_iff
  simp only [constantToInt, hf]
  change (if constNegative c then -value 256 (if constNegative c then _ else _)
    else value 256 (if constNegative c then _ else _)) = _
  rw [hm]
  split
  case isTrue hc  => rw [abs_of_neg (hn.mp hc), neg_neg]
  case isFalse hc => rw [abs_of_nonneg (by simpa using mt hn.mpr hc)]

theorem constantCommon_represents (ha : a.WellFormed) (hb : b.WellFormed) :
    ∃ a' b', constantCommon a b = (a', b') ∧
      a'.Represents (a.type.common b.type) a.value ∧ b'.Represents (a.type.common b.type) b.value := by
  refine ⟨_, _, ?_, constantConvert_represents ha, constantConvert_represents hb⟩
  simp only [constantCommon, constantConvert, IntType.size_common, IntType.unsigned_common, type]

end Conversions

-- The operators on constants of a common type.
section Operators

theorem signed_represents {negative : Bool} {word : List Int} (hl : word.length = t.size)
    (hp : Proper 256 word) :
    (Constant.mk t.size t.unsigned (if negative then constWordNegate word else word)).Represents t
      (if negative then -Digits.value 256 word else Digits.value 256 word) := by
  cases negative
  case false => exact represents_of_word hl hp rfl
  case true  =>
    refine represents_of_word (t := t) (w := constWordNegate word) (by simpa)
      proper_constWordNegate ?_
    rw [value_constWordNegate, hl]
    simpa [IntType.modulus] using Int.mod_modEq ..

variable (ha : a.WellFormed) (hb : b.WellFormed) (ht : a.type = b.type)

include ha hb ht

theorem length_eq_of_type_eq : a.bytes.length = b.bytes.length := by
  rw [ha.length, hb.length]
  exact congrArg IntType.size ht

theorem add_represents :
    (Constant.mk a.size a.unsigned (constWordAdd a.bytes b.bytes)).Represents a.type
      (a.value + b.value) := by
  have hl := length_eq_of_type_eq ha hb ht
  refine represents_of_word (t := a.type) (by simp [←hl, ha.length, type]) proper_constWordAdd ?_
  rw [value_constWordAdd hl, ←ha.modulus]
  exact (Int.mod_modEq ..).trans <| value_modEq.symm.add (ht ▸ value_modEq.symm)

theorem sub_represents :
    (Constant.mk a.size a.unsigned (constWordAdd a.bytes (constWordNegate b.bytes))).Represents
      a.type (a.value - b.value) := by
  have hl := length_eq_of_type_eq ha hb ht
  refine represents_of_word (t := a.type) (by simp [←hl, ha.length, type]) proper_constWordAdd ?_
  rw [value_constWordAdd (by simpa), value_constWordNegate, ←hl, ←ha.modulus, Int.add_emod_emod]
  exact (Int.mod_modEq ..).trans <| value_modEq.symm.sub (ht ▸ value_modEq.symm)

omit hb in
theorem mul_represents :
    (Constant.mk a.size a.unsigned (constWordMultiply a.bytes b.bytes)).Represents a.type
      (a.value * b.value) := by
  refine represents_of_word (t := a.type) (by simp [ha.length, type]) proper_constWordMultiply ?_
  have := @value_constWordMultiply _ b.bytes ha.proper
  rw [←ha.modulus] at this
  exact this.trans <| value_modEq.symm.mul (ht ▸ value_modEq.symm)

theorem zipWith_represents (hf : Bitwise.IsBitwise f op) (h₀ : f 0 0 = 0) :
    (Constant.mk a.size a.unsigned (List.zipWith f a.bytes b.bytes)).Represents a.type
      (f a.value b.value) := by
  have hl := length_eq_of_type_eq ha hb ht
  have hp : (256 : Int) = 2 ^ 8 := rfl
  refine represents_of_word (t := a.type) (by simp [←hl, ha.length, type])
    (hp ▸ hf.proper_zipWith h₀ (hp ▸ ha.proper) (hp ▸ hb.proper)) ?_
  have hm : (a.type.modulus : Int) = 2 ^ (8 * a.bytes.length) := by rw [ha.modulus, hp, pow_mul]
  have hx : a.value % a.type.modulus = _ := value_modEq (c := a)
  have hy : b.value % b.type.modulus = _ := value_modEq (c := b)
  rw [←ht, hm] at hy
  rw [hm] at hx
  rw [hp, hf.value_zipWith h₀ hl (hp ▸ ha.proper) (hp ▸ hb.proper), ←hp, hm, Int.ModEq,
    hf.mod_pow h₀, hf.mod_pow h₀, hx, hy]

-- The signs and the words of two constants determine their order.
theorem compare_eq :
    (if constNegative a ≠ constNegative b then (if constNegative a then -1 else 1)
      else constWordCompare a.bytes b.bytes) =
      if a.value < b.value then -1 else if a.value = b.value then (0 : Int) else 1 := by
  have hl := length_eq_of_type_eq ha hb ht
  have hna := ha.negative_iff
  have hnb := hb.negative_iff
  have hva := ha.value_eq
  have hvb := hb.value_eq
  rw [constWordCompare_eq ha.proper hb.proper hl]
  rw [←ht] at hvb
  cases hca : constNegative a <;> cases hcb : constNegative b <;> simp_all
  all_goals split_ifs <;> first | rfl | omega

-- The long division of the magnitudes, with the signs applied afterwards.
theorem div_mod_represents (h₀ : b.value ≠ 0) :
    let am := if constNegative a then constWordNegate a.bytes else a.bytes
    let bm := if constNegative b then constWordNegate b.bytes else b.bytes
    let q := (constWordDivide am bm).1
    let r := (constWordDivide am bm).2
    (Constant.mk a.size a.unsigned
        (if constNegative a != constNegative b then constWordNegate q else q)).Represents
      a.type (a.value.tdiv b.value) ∧
    (Constant.mk a.size a.unsigned (if constNegative a then constWordNegate r else r)).Represents
      a.type (a.value.tmod b.value) := by
  intro am bm q r
  have hma : am.length = a.bytes.length := by simp only [am]; split <;> simp
  have hmb : bm.length = b.bytes.length := by simp only [bm]; split <;> simp
  have hl : am.length = bm.length := by rw [hma, hmb, length_eq_of_type_eq ha hb ht]
  have hpa : Proper 256 am := by
    simp only [am]; split; exacts [proper_constWordNegate, ha.proper]
  have hpb : Proper 256 bm := by
    simp only [bm]; split; exacts [proper_constWordNegate, hb.proper]
  have ⟨hq, hr⟩ := value_constWordDivide hpa hpb hl (by rw [hb.magnitude]; exact abs_ne_zero.mpr h₀)
  have ⟨hlq, hlr⟩ := length_constWordDivide hl
  have ⟨hpq, hpr⟩ := @proper_constWordDivide am bm
  rw [ha.magnitude, hb.magnitude] at hq hr
  rw [hma, ha.length] at hlq hlr
  have hna : decide (a.value < 0) = constNegative a := by simp [←ha.negative_iff]
  have hnb : decide (b.value < 0) = constNegative b := by simp [←hb.negative_iff]
  constructor
  · rw [tdiv_eq_abs, hna, hnb, ←hq]
    exact signed_represents (t := a.type) hlq hpq
  · have hc : a.value < 0 ↔ constNegative a = true := ha.negative_iff.symm
    rw [tmod_eq_abs, if_congr hc rfl rfl, ←hr]
    exact signed_represents (t := a.type) hlr hpr

end Operators

section Shifts

theorem shift_left_represents (h : c.WellFormed) :
    (Constant.mk c.size c.unsigned (constShift.shift false fill n c.bytes)).Represents c.type
      (c.value * 2 ^ n) := by
  induction n generalizing c
  case zero      => simpa [constShift.shift] using represents_self h
  case succ n hi =>
    have hs : (Constant.mk c.size c.unsigned (byteWordMulSmall 2 c.bytes)).Represents c.type
        (2 * c.value) := by
      refine represents_of_word (t := c.type) (by simp [h.length, type]) proper_byteWordMulSmall ?_
      rw [value_byteWordMulSmall, ←h.modulus]
      exact (Int.mod_modEq ..).trans <| value_modEq.symm.mul_left _
    refine (hi hs.wellFormed).congr <| IntType.wrap_congr ?_
    rw [hs.value, pow_succ', show c.value * (2 * 2 ^ n) = 2 * c.value * 2 ^ n by ring]
    exact IntType.wrap_modEq.mul_right _

theorem constWordRight_represents (h : c.WellFormed) (hs : 0 < c.size) :
    (Constant.mk c.size c.unsigned
      (constWordRight (if constNegative c then 128 else 0) c.bytes)).Represents c.type
      (c.value / 2) := by
  have hl : 0 < c.bytes.length := h.length.symm ▸ hs
  refine represents_of_word (t := c.type) (by simp [h.length, type])
    (proper_constWordRight h.proper (by split <;> simp)) ?_
  rw [value_constWordRight h.proper (List.ne_nil_of_length_pos hl), h.value_eq, h.modulus]
  have hp : (256 : Int) ^ c.bytes.length = 2 * (128 * 256 ^ (c.bytes.length - 1)) := by
    conv_lhs => rw [show c.bytes.length = c.bytes.length - 1 + 1 by omega, pow_succ]
    ring
  rw [hp]
  split
  case isFalse => simp
  case isTrue  =>
    generalize 128 * (256 : Int) ^ (c.bytes.length - 1) = m at *
    rw [show (Digits.value 256 c.bytes - 2 * m) / 2 = Digits.value 256 c.bytes / 2 - m by omega,
      Int.modEq_iff_dvd]
    exists -1
    ring

theorem shift_right_represents (h : c.WellFormed) (hs : 0 < c.size) :
    (Constant.mk c.size c.unsigned
      (constShift.shift true (if constNegative c then 128 else 0) n c.bytes)).Represents c.type
      (c.value / 2 ^ n) := by
  induction n generalizing c
  case zero      => simpa [constShift.shift] using represents_self h
  case succ n hi =>
    have hr := constWordRight_represents h hs
    have hv := hr.value.trans <| IntType.wrap_ediv_two wrap_value
    have hn := hr.wellFormed.negative_iff
    have := h.negative_iff
    have hn : constNegative (.mk c.size c.unsigned
        (constWordRight (if constNegative c then 128 else 0) c.bytes)) = constNegative c := by
      rw [Bool.eq_iff_iff, hn, hv, this]
      omega
    have := hi hr.wellFormed hs
    rw [hn, hv, Int.ediv_ediv_of_nonneg two_pos.le, ←pow_succ'] at this
    exact this

theorem constShift_represents (ha : a.WellFormed) (hb : b.WellFormed) (hs : 0 < a.size)
    (hm : (8 * a.size : Int) < b.type.modulus) :
    if 0 ≤ b.value ∧ b.value < 8 * a.size then
      ∃ c, constShift right a b = .ok c ∧
        c.Represents a.type (if right then a.value / 2 ^ b.value.toNat else a.value * 2 ^ b.value.toNat)
    else
      ∃ message, constShift right a b = .error message := by
  have hc : (constNegative b = true ∨ constWordCompare b.bytes
      (intBytes b.bytes.length (a.size * 8)) ≥ 0) ↔ ¬(0 ≤ b.value ∧ b.value < 8 * a.size) := by
    have hn := hb.negative_iff
    have hv := hb.value_eq
    rw [constWordCompare_nonneg_iff hb.proper proper_intBytes (by simp), value_intBytes,
      ←hb.modulus, Int.emod_eq_of_lt (by omega) (by omega), hn]
    cases h : constNegative b <;> simp_all
    omega
  by_cases hd : 0 ≤ b.value ∧ b.value < 8 * a.size
  case pos =>
    rw [if_pos hd]
    refine ⟨_, if_neg (by rwa [hc, not_not]), ?_⟩
    rw [constantToInt_eq hb]
    cases right
    case false => exact shift_left_represents ha
    case true  => exact shift_right_represents ha hs
  case neg =>
    rw [if_neg hd]
    exact ⟨_, if_pos (hc.mpr hd)⟩

end Shifts

theorem bitAndInt_eq : bitAndInt = Int.land :=
  funext₂ <| isBitwise_bitFoldInt.unique Bitwise.isBitwise_land

theorem bitOrInt_eq : bitOrInt = Int.lor :=
  funext₂ <| isBitwise_bitFoldInt.unique Bitwise.isBitwise_lor

theorem bitXorInt_eq : bitXorInt = Int.xor :=
  funext₂ <| isBitwise_bitFoldInt.unique Bitwise.isBitwise_xor

theorem boolean_represents {p q : Bool} (hs : c.size = 4 ∨ c.size = 8) (h : p = true ↔ q = true) :
    (constantInt (min 4 c.size) (boolToInt p)).Represents .int (BinaryOp.ofBool q) := by
  rw [Bool.eq_iff_iff.mpr h, show min 4 c.size = 4 by omega]
  cases q <;> exact ⟨by decide, rfl, by decide⟩

-- The operators of constant expressions on integers of at least the width of `int`.
theorem constantBinary_represents (ha : a.WellFormed) (hb : b.WellFormed)
    (hsa : a.Standard) (hsb : b.Standard) (ho : binaryOp? n = some op) :
    if op.Defined a.type b.value then
      ∃ c, constantBinary n a b = .ok c ∧
        c.Represents (op.resultType a.type b.type) (op.eval a.type b.type a.value b.value)
    else
      ∃ message, constantBinary n a b = .error message := by
  have ⟨a', b', hc, hra, hrb⟩ := constantCommon_represents ha hb
  have hwa := hra.wellFormed
  have hwb := hrb.wellFormed
  have ht : a'.type = b'.type := hra.type.trans hrb.type.symm
  have hs : a'.size = 4 ∨ a'.size = 8 := by
    have := congrArg IntType.size hra.type
    rw [IntType.size_common] at this
    rcases hsa with h | h <;> rcases hsb with h' | h' <;> simp_all [type]
  have hcmp := compare_eq hwa hwb ht
  have hva := hra.value
  have hvb := hrb.value
  rw [←hra.type] at hva hvb
  have hza : a'.value = 0 ↔ a.value = 0 := by
    rw [hra.value]
    exact IntType.wrap_wrap_eq_zero_iff (IntType.size_common ▸ le_max_left ..)
  have hzb : b'.value = 0 ↔ b.value = 0 := by
    rw [hrb.value]
    exact IntType.wrap_wrap_eq_zero_iff (IntType.size_common ▸ le_max_right ..)
  have hd : (!constantTrue b') = true ↔ b.value = 0 := by
    rw [Bool.not_eq_true', ←Bool.not_eq_true, hwb.true_iff, ne_eq, not_not, hzb]
  unfold binaryOp? at ho
  split at ho <;> cases ho <;>
    simp only [BinaryOp.Defined, if_true, constantBinary, hc, hcmp, BinaryOp.resultType,
      BinaryOp.IsShift, BinaryOp.IsTest, Bool.false_eq_true, if_false, BinaryOp.eval, ←hra.type,
      ←hva, ←hvb, bitAndInt_eq, bitOrInt_eq, bitXorInt_eq]
  case h_1 => exact ⟨_, rfl, add_represents hwa hwb ht⟩
  case h_2 => exact ⟨_, rfl, sub_represents hwa hwb ht⟩
  case h_3 => exact ⟨_, rfl, mul_represents hwa ht⟩
  case h_4 =>
    by_cases h : b.value = 0
    · rw [if_neg (not_not.mpr h)]
      exact ⟨_, if_pos (hd.mpr h)⟩
    · rw [if_pos h, if_neg (hd.not.mpr h)]
      exact ⟨_, rfl, (div_mod_represents hwa hwb ht (hzb.not.mpr h)).left⟩
  case h_5 =>
    by_cases h : b.value = 0
    · rw [if_neg (not_not.mpr h)]
      exact ⟨_, if_pos (hd.mpr h)⟩
    · rw [if_pos h, if_neg (hd.not.mpr h)]
      exact ⟨_, rfl, (div_mod_represents hwa hwb ht (hzb.not.mpr h)).right⟩
  case h_6 => exact constShift_represents ha hb hsa.pos (hsa.lt_modulus hsb)
  case h_7 => exact constShift_represents ha hb hsa.pos (hsa.lt_modulus hsb)
  case h_8 | h_9 | h_10 | h_11 | h_12 | h_13 =>
    refine ⟨_, rfl, boolean_represents hs ?_⟩
    split_ifs <;> simp <;> omega
  case h_14 => exact ⟨_, rfl, zipWith_represents hwa hwb ht Bitwise.isBitwise_land rfl⟩
  case h_15 => exact ⟨_, rfl, zipWith_represents hwa hwb ht Bitwise.isBitwise_lor rfl⟩
  case h_16 => exact ⟨_, rfl, zipWith_represents hwa hwb ht Bitwise.isBitwise_xor rfl⟩
  case h_17 | h_18 =>
    refine ⟨_, rfl, boolean_represents hs ?_⟩
    simp [hwa.true_iff, hwb.true_iff, hza, hzb]

theorem div_mod_value (ha : a.WellFormed) (hb : b.WellFormed) (hsa : a.Standard)
    (hsb : b.Standard) (hq : constantBinary "/" a b = .ok q) (hr : constantBinary "%" a b = .ok r) :
    let t := a.type.common b.type
    t.wrap (q.value * t.wrap b.value + r.value) = t.wrap a.value := by
  have hdiv := constantBinary_represents ha hb hsa hsb (n := "/") rfl
  have hmod := constantBinary_represents ha hb hsa hsb (n := "%") rfl
  split at hdiv <;> simp_all
  have hvq := hdiv.value
  have hvr := hmod.right.value
  simp only [BinaryOp.resultType, BinaryOp.IsShift, BinaryOp.IsTest, Bool.false_eq_true, if_false,
    BinaryOp.eval] at hvq hvr
  rw [hvq, hvr, div_mul_add_mod, IntType.wrap_wrap]

-- Constants implement the arithmetic of C integers. The only errors are divisions by zero and shift
-- counts outside of the width of the shifted value.
theorem constant_arithmetic (ha : a.WellFormed) (hb : b.WellFormed) (hsa : a.Standard)
    (hsb : b.Standard) :
    (∀ name op, binaryOp? name = some op →
      if op.Defined a.type b.value then
        ∃ c, constantBinary name a b = .ok c ∧
          c.Represents (op.resultType a.type b.type) (op.eval a.type b.type a.value b.value)
      else
        ∃ message, constantBinary name a b = .error message) ∧
    (∀ name op, unaryOp? name = some op →
      (constantUnary name a).Represents a.type (op.eval a.value)) ∧
    (∀ size unsigned, (constantConvert size unsigned a).Represents ⟨size, unsigned⟩ a.value) ∧
    (∀ q r, constantBinary "/" a b = .ok q → constantBinary "%" a b = .ok r →
      let t := a.type.common b.type
      t.wrap (q.value * t.wrap b.value + r.value) = t.wrap a.value) :=
  ⟨fun _ _ ho => constantBinary_represents ha hb hsa hsb ho,
    fun _ _ ho => constantUnary_represents ha ho,
    fun size unsigned => constantConvert_represents (t := ⟨size, unsigned⟩) ha,
    fun _ _ hq hr => div_mod_value ha hb hsa hsb hq hr⟩

theorem constant_arithmetic_quotient :
    ∃ q, constantBinary "/" (constantInt 4 (-7)) (constantInt 4 2) = .ok q ∧ q.value = -3 := by
  have h := (constant_arithmetic (a := constantInt 4 (-7)) (b := constantInt 4 2) (by decide)
    (by decide) (by decide) (by decide)).left "/" .div rfl
  rw [if_pos (by decide)] at h
  have ⟨q, hq, h⟩ := h
  exact ⟨q, hq, h.value⟩

-- A nonnegative shift count is an error as well if it is not less than the width.
theorem shift_count_error :
    ¬∀ a b : Constant, a.WellFormed → b.WellFormed → a.Standard → b.Standard →
      ∀ name op, binaryOp? name = some op →
        ((∃ message, constantBinary name a b = .error message) ↔
          op ∈ [.div, .mod] ∧ b.value = 0 ∨ op ∈ [.shl, .shr] ∧ b.value < 0) := by
  intro h
  have := (h (constantInt 4 1) (constantInt 4 32) (by decide) (by decide) (by decide) (by decide)
    "<<" .shl rfl).mp ⟨_, rfl⟩
  revert this
  decide

end Hcc
