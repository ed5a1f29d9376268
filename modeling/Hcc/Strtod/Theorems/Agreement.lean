import Hcc.Strtod.Theorems.Scaling

namespace Hcc.Strtod

variable {n fuel : Nat} {exp2 : Int} {digits : List Char} {c : Char} {a : Mes.Arithmetic}

-- The scaling helpers agree on this result.
def scaled (mantissa : Nat) (exp2 : Int) : Double :=
  (doubleFromScaledUint64 roundHalf 64 mantissa exp2).getD 0

inductive Sign
  | absent
  | plus
  | minus

namespace Sign

def text : Sign → List Char
  | absent => []
  | plus   => ['+']
  | minus  => ['-']

def negative : Sign → Bool
  | minus         => true
  | absent | plus => false

end Sign

def Double.signed (negative : Bool) (d : Double) : Double :=
  if negative then d.neg else d

theorem Double.msb_neg {d : Double} : d.neg.msb = !d.msb := by
  rw [Double.neg, BitVec.msb_xor]
  exact Bool.xor_true _

section Helpers

theorem scaled_yields (exp2) (h : n ≤ ulongMax) :
    (∀ fuel ≥ 64, doubleFromScaledUint64 roundHalf fuel n exp2 = some (scaled n exp2)) ∧
      (scaled n exp2).msb = false := by
  rcases Nat.eq_zero_or_pos n with rfl | h₀
  · exact ⟨fun _ _ => rfl, show (0 : BitVec 64).msb = false by decide⟩
  · have ⟨m, e, hm, hy⟩ := scaled_ends exp2 h₀ h
    have hs : scaled n exp2 = pack m e := by rw [scaled, hy 64 le_rfl, Option.getD_some]
    have hp := pack_nonnegative e hm
    rw [hs]
    exact ⟨hy, BitVec.msb_eq_false_iff_two_mul_lt.mpr <| by omega⟩

theorem Mes.scaled_yields (exp2) (h : n ≤ ulongMax) :
    Yields (Mes.hccStrtodDoubleFromScaledUint64 · n exp2) (scaled n exp2) := by
  refine ⟨64, fun fuel hf => ?_⟩
  have hc := doubleFromScaledUint64_congr fuel exp2 fun u hu => halve_eq <| hu.trans h
  exact hc.trans <| (Strtod.scaled_yields exp2 h).left fuel hf

theorem Support.scaled_yields (exp2) (h : n < ulongMax) :
    Yields (Support.hccDoubleFromScaledUint64 · n exp2) (scaled n exp2) := by
  refine ⟨64, fun fuel hf => ?_⟩
  have hc := doubleFromScaledUint64_congr fuel exp2 fun u hu => halve_eq <| hu.trans_lt h
  exact hc.trans <| (Strtod.scaled_yields exp2 h.le).left fuel hf

theorem stretch_zero : stretch fuel 0 exp2 = none := by
  induction fuel generalizing exp2
  case zero    => rfl
  case succ hi =>
    rw [stretch, if_pos (by decide)]
    exact hi

-- The rounding of the largest mantissa wraps around, and the second loop does not end for zero.
theorem Support.scaled_max : Support.hccDoubleFromScaledUint64 fuel ulongMax exp2 = none := by
  have hs : ∀ m e, shrink halve fuel ulongMax exp2 = some (m, e) → m = 0 := by
    intro m e hs
    rcases fuel with _ | _ | fuel
    · contradiction
    · rw [shrink, if_pos (by decide)] at hs
      contradiction
    · rw [shrink, if_pos (by decide), halve_max, shrink, if_neg (by decide)] at hs
      exact (congrArg Prod.fst <| Option.some.inj hs).symm
  unfold hccDoubleFromScaledUint64 doubleFromScaledUint64
  rw [if_neg (by decide)]
  cases hr : shrink halve fuel ulongMax exp2
  case none => rfl
  case some r =>
    have hz := hs r.1 r.2 hr
    simp only [Option.bind_eq_bind, Option.bind_some, hz, stretch_zero]
    rfl

-- The helpers agree unless the rounding wraps around.
theorem scaled_agree_iff (mantissa : BitVec 64) :
    (∃ d, Yields (Support.hccDoubleFromScaledUint64 · mantissa.toNat exp2) d ∧
      Yields (Mes.hccStrtodDoubleFromScaledUint64 · mantissa.toNat exp2) d) ↔ mantissa.toNat ≠ ulongMax := by
  have hm : mantissa.toNat ≤ ulongMax := Nat.le_of_lt_succ mantissa.isLt
  constructor
  case mp =>
    rintro ⟨d, ⟨k, hs⟩, _⟩ he
    have hs : Support.hccDoubleFromScaledUint64 k ulongMax exp2 = some d := he ▸ hs k le_rfl
    rw [Support.scaled_max] at hs
    contradiction
  case mpr =>
    intro hn
    exact ⟨_, Support.scaled_yields _ <| lt_of_le_of_ne hm hn, Mes.scaled_yields _ hm⟩

end Helpers

section Digits

def isDecimal (c : Char) : Bool :=
  '0' ≤ c ∧ c ≤ '9'

theorem digitValue_decimal (h : isDecimal c) :
    Support.digitValue c = some (Mes.hccStrtodDigitValue c) ∧ Mes.hccStrtodDigitValue c < 10 := by
  have h : '0' ≤ c ∧ c ≤ '9' := of_decide_eq_true h
  have h₂ : c.toNat ≤ '9'.toNat := h.right
  simp only [Support.digitValue, Mes.hccStrtodDigitValue, ge_iff_le, h, and_self, if_true, true_and]
  have he : '9'.toNat = 57 := rfl
  have hz : '0'.toNat = 48 := rfl
  omega

theorem unsignedLong_mulAdd {v base digit : Nat} :
    unsignedLong (unsignedLong (unsignedLong v * base) + digit) = unsignedLong (v * base + digit) := by
  simp [unsignedLong, Nat.add_mod, Nat.mul_mod]

theorem parseDigits_decimal {v : Nat} (hd : ∀ c ∈ digits, isDecimal c) :
    Support.parseDigits 10 (unsignedLong v) digits =
      (unsignedLong (digits.foldl (fun v c => v * 10 + Mes.hccStrtodDigitValue c) v), []) := by
  induction digits generalizing v
  case nil          => rfl
  case cons c _ hi =>
    have ⟨hc, hd⟩ := List.forall_mem_cons.mp hd
    have ⟨hv, hl⟩ := digitValue_decimal hc
    simp only [Support.parseDigits, hv, if_neg (not_le.mpr hl), unsignedLong_mulAdd, List.foldl_cons]
    exact hi hd

theorem decimal_ne (h : isDecimal c) :
    c ≠ ' ' ∧ c ≠ '\t' ∧ c ≠ '\n' ∧ c ≠ '+' ∧ c ≠ '-' ∧ c ≠ 'x' ∧ c ≠ 'X' := by
  refine ⟨?_, ?_, ?_, ?_, ?_, ?_, ?_⟩
  all_goals
    rintro rfl
    exact absurd h <| by decide

theorem skipBlanks_digits (hd : ∀ c ∈ digits, isDecimal c) : Support.skipBlanks digits = digits := by
  cases digits
  case nil => rfl
  case cons c _ =>
    have hc := decimal_ne <| hd c <| .head _
    rw [Support.skipBlanks]
    all_goals simp_all

theorem parseUnsigned_digits (hd : ∀ c ∈ digits, isDecimal c) :
    Support.parseUnsigned digits 10 = (unsignedLong (Mes.digitsValue 10 digits), []) := by
  have hp := parseDigits_decimal (v := 0) hd
  rw [Support.parseUnsigned, skipBlanks_digits hd]
  exact hp

theorem strtol_text (sign : Sign) (hd : ∀ c ∈ digits, isDecimal c) :
    (Support.strtol (sign.text ++ digits) 10).1 =
      if sign.negative then long (-long (unsignedLong (Mes.digitsValue 10 digits)))
      else long (unsignedLong (Mes.digitsValue 10 digits)) := by
  have hp := parseUnsigned_digits hd
  cases sign
  case plus | minus =>
    simp [Support.strtol, Sign.text, Sign.negative, Support.skipBlanks, hp]
  case absent =>
    have hs := skipBlanks_digits hd
    rw [Sign.text, List.nil_append, Support.strtol, hs]
    split
    case h_1 => exact absurd rfl (decimal_ne <| hd _ <| .head _).right.right.right.right.left
    case h_2 => exact absurd rfl (decimal_ne <| hd _ <| .head _).right.right.right.left
    case h_3 => simp [Sign.negative, hp]

theorem exponentSign_text {sign : Sign} (hd : ∀ c ∈ digits, isDecimal c) :
    Mes.exponentSign (sign.text ++ digits) = (sign.negative, digits) := by
  cases sign
  case plus | minus => rfl
  case absent =>
    rw [Sign.text, List.nil_append]
    unfold Mes.exponentSign
    split
    case h_1 => exact absurd rfl (decimal_ne <| hd _ <| .head _).right.right.right.right.left
    case h_2 => exact absurd rfl (decimal_ne <| hd _ <| .head _).right.right.right.left
    case h_3 => rfl

theorem integerDigits_digits {s : Mes.Significand} (hd : ∀ c ∈ digits, isDecimal c) :
    Mes.integerDigits 10 s digits = ((Mes.integerDigits 10 s digits).1, []) := by
  have hd : ∀ c ∈ digits, Mes.isDigit 10 c := fun c hc => decide_eq_true (digitValue_decimal <| hd c hc).right
  have ha : Mes.integerDigits 10 s (digits ++ []) = _ := Mes.integerDigits_append hd
  rw [List.append_nil] at ha
  exact ha

theorem abtod_text {sign : Sign} (hd : ∀ c ∈ digits, isDecimal c) :
    Mes.abtod a fuel (sign.text ++ digits) 10 =
      (Mes.hccStrtodDoubleFromScaledUint64 fuel (Mes.integerDigits 10 ⟨0, 0⟩ digits).1.integer
        (Mes.integerDigits 10 ⟨0, 0⟩ digits).1.exp2).map fun d => (d.signed sign.negative, []) := by
  rw [Mes.abtod]
  simp only [exponentSign_text hd, if_neg (show ¬10 = 0 by decide)]
  rw [integerDigits_digits hd]
  cases Mes.hccStrtodDoubleFromScaledUint64 fuel (Mes.integerDigits 10 ⟨0, 0⟩ digits).1.integer
    (Mes.integerDigits 10 ⟨0, 0⟩ digits).1.exp2
  all_goals rfl

-- A string of decimal digits does not have the prefix of a hexadecimal literal.
theorem Mes.strtod_text {sign : Sign} (hd : ∀ c ∈ digits, isDecimal c) :
    Mes.strtod a fuel (sign.text ++ digits) = (Mes.abtod a fuel (sign.text ++ digits) 10).map Prod.fst := by
  have hx : 'x' ∉ digits ∧ 'X' ∉ digits :=
    ⟨fun hx => absurd (hd _ hx) <| by decide, fun hx => absurd (hd _ hx) <| by decide⟩
  unfold Mes.strtod
  split
  case h_1 p he =>
    cases sign <;> simp only [Sign.text, List.nil_append, List.cons_append] at he
    case absent => exact absurd (by simp [he]) hx.left
    all_goals exact absurd (List.cons.inj he).left <| by decide
  case h_2 p he =>
    cases sign <;> simp only [Sign.text, List.nil_append, List.cons_append] at he
    case absent => exact absurd (by simp [he]) hx.right
    all_goals exact absurd (List.cons.inj he).left <| by decide
  case h_3 =>
    cases Mes.abtod a fuel (sign.text ++ digits) 10
    all_goals rfl

end Digits

section Long

theorem long_low {v : Int} (h : -2 ^ 63 ≤ v) (h' : v < 2 ^ 63) : long v = v :=
  Int.bmod_eq_of_le (by norm_num; omega) (by norm_num; omega)

theorem long_high {v : Int} (h : 2 ^ 63 ≤ v) (h' : v < 2 ^ 64) : long v = v - 2 ^ 64 := by
  have hs : (v - (2 ^ 64 : Nat)).bmod (2 ^ 64) = v.bmod (2 ^ 64) := Int.sub_bmod_right v _
  rw [long, ←hs]
  exact long_low (by omega) (by omega)

theorem unsigned_long {v : Int} : long v % 2 ^ 64 = v % 2 ^ 64 :=
  Int.bmod_emod

theorem Support.strtod_value {text : List Char} {v : Int} (h : (Support.strtol text 10).1 = v)
    (hl : -2 ^ 63 ≤ v) (hh : v < 2 ^ 63) :
    Yields (Support.strtod · text) ((scaled v.natAbs 0).signed (v < 0)) := by
  have hm : v.natAbs < ulongMax := by unfold ulongMax; omega
  have ⟨k, hy⟩ := Support.scaled_yields 0 hm
  refine ⟨k, fun fuel hf => ?_⟩
  have hy : hccDoubleFromScaledUint64 fuel v.natAbs 0 = some (scaled v.natAbs 0) := hy fuel hf
  simp only [Support.strtod, h]
  by_cases hn : v < 0
  case pos =>
    have hv : (long (0 - v) % 2 ^ 64).toNat = v.natAbs := by rw [unsigned_long]; omega
    rw [if_pos hn, hv, hy]
    simp [Double.signed, hn]
  case neg =>
    have hv : (v % 2 ^ 64).toNat = v.natAbs := by omega
    rw [if_neg hn, hv, hy]
    simp [Double.signed, hn]

end Long

section Strings

variable (sign : Sign) (hd : ∀ c ∈ digits, isDecimal c) (hv : Mes.digitsValue 10 digits ≤ ulongMax)

include hd hv

theorem Mes.strtod_yields : Yields (Mes.strtod a · (sign.text ++ digits))
    ((scaled (Mes.digitsValue 10 digits) 0).signed sign.negative) := by
  have hd' : ∀ c ∈ digits, Mes.isDigit Mes.Radix.decimal.base c := fun c hc =>
    decide_eq_true (digitValue_decimal <| hd c hc).right
  have he := (Mes.accurate_zero.integerDigits hd').exact <| Nat.lt_succ_of_le hv
  have ⟨k, hy⟩ := Mes.scaled_yields 0 hv
  refine ⟨k, fun fuel hf => ?_⟩
  have hy : Mes.hccStrtodDoubleFromScaledUint64 fuel (Mes.integerDigits 10 ⟨0, 0⟩ digits).1.integer
      (Mes.integerDigits 10 ⟨0, 0⟩ digits).1.exp2 = some (scaled (Mes.digitsValue 10 digits) 0) := by
    have hi : (Mes.integerDigits 10 ⟨0, 0⟩ digits).1.integer = Mes.digitsValue 10 digits := he.right
    have hz : (Mes.integerDigits 10 ⟨0, 0⟩ digits).1.exp2 = 0 := he.left
    rw [hi, hz]
    exact hy fuel hf
  change Mes.strtod a fuel (sign.text ++ digits) = _
  rw [Mes.strtod_text hd, abtod_text hd, hy]
  rfl

-- The number goes through a `long`, which cannot represent the upper half of the magnitudes.
theorem Support.strtod_yields : Yields (Support.strtod · (sign.text ++ digits))
    (if Mes.digitsValue 10 digits < 2 ^ 63 ∨ sign.negative ∧ Mes.digitsValue 10 digits = 2 ^ 63 then
      (scaled (Mes.digitsValue 10 digits) 0).signed (sign.negative ∧ Mes.digitsValue 10 digits ≠ 0)
    else (scaled (2 ^ 64 - Mes.digitsValue 10 digits) 0).signed !sign.negative) := by
  have ht := strtol_text sign hd
  rw [Mes.unsignedLong_of_le hv] at ht
  unfold ulongMax at hv
  generalize Mes.digitsValue 10 digits = n at *
  rcases lt_trichotomy n (2 ^ 63) with hn | rfl | hn
  · have hp : long n = n := long_low (by omega) (by omega)
    have hm : long (-n) = -n := long_low (by omega) (by omega)
    rw [if_pos (.inl hn)]
    rw [hp, hm] at ht
    cases hs : sign.negative <;> simp only [hs, if_true, if_false, Bool.false_eq_true] at ht
    case false =>
      have hy := Support.strtod_value ht (by omega) (by omega)
      simpa [not_lt.mpr (Int.natCast_nonneg n)] using hy
    case true  =>
      have hy := Support.strtod_value ht (by omega) (by omega)
      simpa [Nat.pos_iff_ne_zero] using hy
  · have hp : long (2 ^ 63 : Nat) = -2 ^ 63 := by decide
    have hm : long (-(-2 ^ 63)) = -2 ^ 63 := by decide
    rw [hp, hm] at ht
    cases hs : sign.negative <;> simp only [hs, if_true, if_false, Bool.false_eq_true] at ht
    all_goals
      have hy := Support.strtod_value ht (by omega) (by omega)
      simpa using hy
  · have hp : long n = n - 2 ^ 64 := long_high (by omega) (by omega)
    have hm : long (-(n - 2 ^ 64)) = 2 ^ 64 - n := by
      rw [neg_sub]
      exact long_low (by omega) (by omega)
    rw [if_neg (by omega)]
    rw [hp, hm] at ht
    cases hs : sign.negative <;> simp only [hs, if_true, if_false, Bool.false_eq_true] at ht
    case false =>
      have hy := Support.strtod_value ht (by omega) (by omega)
      have ha : ((n : Int) - 2 ^ 64).natAbs = 2 ^ 64 - n := by omega
      have hl : (n : Int) - 2 ^ 64 < 0 := by omega
      rw [ha, decide_eq_true hl] at hy
      exact hy
    case true  =>
      have hy := Support.strtod_value ht (by omega) (by omega)
      have ha : (2 ^ 64 - (n : Int)).natAbs = 2 ^ 64 - n := by omega
      have hl : ¬2 ^ 64 - (n : Int) < 0 := by omega
      rw [ha, decide_eq_false hl] at hy
      exact hy

end Strings

-- Both conversions give the same double, and its sign is that of the string.
def Agree (a : Mes.Arithmetic) (text : List Char) (negative : Bool) : Prop :=
  ∃ d : Double, d.msb = negative ∧ Yields (Support.strtod · text) d ∧ Yields (Mes.strtod a · text) d

theorem Double.msb_signed {d : Double} {b : Bool} (h : d.msb = false) : (d.signed b).msb = b := by
  cases b
  case false => exact h
  case true  =>
    rw [signed, if_pos rfl, msb_neg, h]
    rfl

theorem strtod_agree_iff (sign : Sign) (hd : ∀ c ∈ digits, isDecimal c)
    (hv : Mes.digitsValue 10 digits ≤ ulongMax) : Agree a (sign.text ++ digits) sign.negative ↔
      (Mes.digitsValue 10 digits < 2 ^ 63 ∨ sign.negative ∧ Mes.digitsValue 10 digits = 2 ^ 63) ∧
      (sign.negative → Mes.digitsValue 10 digits ≠ 0) := by
  have hs := Support.strtod_yields sign hd hv
  have hm := Mes.strtod_yields (a := a) sign hd hv
  have hp := (scaled_yields 0 hv).right
  constructor
  case mp =>
    rintro ⟨d, hd, hs', hm'⟩
    have he := hs.unique hs'
    split at he
    case isTrue hc =>
      refine ⟨hc, fun hn hz => ?_⟩
      have hb := Double.msb_signed (b := sign.negative ∧ Mes.digitsValue 10 digits ≠ 0) hp
      rw [he, hd, hn, hz] at hb
      simp at hb
    case isFalse hc =>
      have hp' := (scaled_yields (n := 2 ^ 64 - Mes.digitsValue 10 digits) 0 (by unfold ulongMax; omega)).right
      have hb := Double.msb_signed (b := !sign.negative) hp'
      rw [he, hd] at hb
      simp at hb
  case mpr =>
    rintro ⟨hc, hz⟩
    rw [if_pos hc] at hs
    have hn : decide (sign.negative ∧ Mes.digitsValue 10 digits ≠ 0) = sign.negative := by
      cases hn : sign.negative
      case false => simp
      case true  => simpa using hz hn
    rw [hn] at hs
    exact ⟨_, Double.msb_signed hp, hs, hm⟩

-- The conversions of integers, and the helpers that they use.
theorem conversions_agree (a : Mes.Arithmetic) :
    (∀ (sign : Sign) (digits : List Char), (∀ c ∈ digits, isDecimal c) →
      Mes.digitsValue 10 digits < 2 ^ 64 → (Agree a (sign.text ++ digits) sign.negative ↔
        (Mes.digitsValue 10 digits < 2 ^ 63 ∨ sign.negative ∧ Mes.digitsValue 10 digits = 2 ^ 63) ∧
        (sign.negative → Mes.digitsValue 10 digits ≠ 0))) ∧
    (∀ (mantissa : BitVec 64) (exp2 : Int),
      (∃ d, Yields (Support.hccDoubleFromScaledUint64 · mantissa.toNat exp2) d ∧
        Yields (Mes.hccStrtodDoubleFromScaledUint64 · mantissa.toNat exp2) d) ↔ mantissa.toNat ≠ ulongMax) ∧
    (∀ (mantissa : Nat) (exp2 : Int), mantissa < 2 ^ 53 → (2 : ℚ) ^ (-1022 : ℤ) ≤ mantissa * 2 ^ exp2 →
      mantissa * (2 : ℚ) ^ exp2 < 2 ^ (1024 : ℤ) →
        ∃ d, Yields (Support.hccDoubleFromScaledUint64 · mantissa exp2) d ∧
          Yields (Mes.hccStrtodDoubleFromScaledUint64 · mantissa exp2) d ∧
          Denotes d (mantissa * 2 ^ exp2)) := by
  refine ⟨fun sign _ hd hv => strtod_agree_iff sign hd <| Nat.le_of_lt_succ hv,
    fun mantissa _ => scaled_agree_iff mantissa, fun mantissa exp2 hm hl hh => ?_⟩
  have h₀ : 0 < mantissa := by
    rcases Nat.eq_zero_or_pos mantissa with rfl | h₀
    · rw [Nat.cast_zero, zero_mul] at hl
      exact absurd (zpow_pos two_pos (-1022)) <| not_lt.mpr hl
    · exact h₀
  have hn : mantissa < ulongMax := by unfold ulongMax; omega
  have ⟨d, hy, he⟩ := scaled_exact h₀ hm hl hh
  have ⟨k, hy⟩ := hy
  have hs : d = scaled mantissa exp2 := by
    have hy : doubleFromScaledUint64 roundHalf (max k 64) mantissa exp2 = some d := hy _ <| le_max_left ..
    rw [(scaled_yields exp2 hn.le).left _ (le_max_right ..)] at hy
    exact (Option.some.inj hy).symm
  exact ⟨d, hs ▸ Support.scaled_yields exp2 hn, hs ▸ Mes.scaled_yields exp2 hn.le, he⟩

-- The first magnitude that a `long` cannot represent.
theorem strtod_disagrees : Mes.digitsValue 10 "9223372036854775808".toList < 2 ^ 64 ∧
    ∀ a, ¬Agree a "9223372036854775808".toList false := by
  have hv : Mes.digitsValue 10 "9223372036854775808".toList = 2 ^ 63 := by decide
  refine ⟨by rw [hv]; decide, fun a ha => ?_⟩
  have hd : ∀ c ∈ "9223372036854775808".toList, isDecimal c := List.all_eq_true.mp (by decide)
  have hi := @strtod_agree_iff "9223372036854775808".toList a .absent hd (by rw [hv]; decide)
  have ⟨hc, _⟩ := hi.mp ha
  rw [hv] at hc
  exact hc.elim (lt_irrefl _) fun h => nomatch h.left

end Hcc.Strtod
