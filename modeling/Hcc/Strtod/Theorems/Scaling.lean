import Hcc.Strtod.Theorems.Accumulate

namespace Hcc.Strtod

variable {halve : Nat → Nat} {mantissa fuel j : Nat} {exp2 : Int} {d : Double}

-- Enough fuel gives the result.
def Yields (f : Nat → Option Double) (d : Double) : Prop :=
  ∃ k, ∀ fuel ≥ k, f fuel = some d

theorem Yields.unique {f : Nat → Option Double} {d d' : Double} (h : Yields f d) (h' : Yields f d') : d = d' := by
  have ⟨k, h⟩ := h
  have ⟨k', h'⟩ := h'
  exact Option.some.inj <| (h (max k k') (le_max_left ..)).symm.trans <| h' (max k k') (le_max_right ..)

-- What both implementations are meant to do.
def roundHalf (mantissa : Nat) : Nat :=
  (mantissa + 1) / 2

section Halves

theorem Mes.halve_eq (h : mantissa ≤ ulongMax) : Mes.halve mantissa = roundHalf mantissa := by
  unfold Mes.halve roundHalf unsignedLong
  rw [Nat.shiftRight_eq_div_pow]
  unfold ulongMax at h
  omega

theorem Support.halve_eq (h : mantissa < ulongMax) : Support.halve mantissa = roundHalf mantissa := by
  unfold Support.halve roundHalf unsignedLong
  rw [Nat.shiftRight_eq_div_pow]
  unfold ulongMax at h
  omega

theorem Support.halve_max : Support.halve ulongMax = 0 := by
  decide

theorem roundHalf_le (h : 0 < mantissa) : roundHalf mantissa ≤ mantissa := by
  unfold roundHalf
  omega

end Halves

section Loops

theorem shrink_congr (h : ∀ u ≤ mantissa, halve u = roundHalf u) :
    shrink halve fuel mantissa exp2 = shrink roundHalf fuel mantissa exp2 := by
  induction fuel generalizing mantissa exp2
  case zero    => rfl
  case succ hi =>
    simp only [shrink]
    split
    case isFalse   => rfl
    case isTrue ho =>
      have hp : 0 < mantissa := Nat.lt_of_lt_of_le (by decide) ho
      rw [h mantissa le_rfl]
      exact hi fun u hu => h u <| hu.trans <| roundHalf_le hp

theorem doubleFromScaledUint64_congr (fuel exp2) (h : ∀ u ≤ mantissa, halve u = roundHalf u) :
    doubleFromScaledUint64 halve fuel mantissa exp2 = doubleFromScaledUint64 roundHalf fuel mantissa exp2 := by
  simp only [doubleFromScaledUint64, shrink_congr h]

-- Each step takes one bit away.
theorem shrink_ends (exp2) (h₀ : 0 < mantissa) (h : mantissa ≤ 2 ^ (52 + j)) :
    ∃ m e, 0 < m ∧ m < overflow ∧ ∀ fuel > j, shrink roundHalf fuel mantissa exp2 = some (m, e) := by
  induction j generalizing mantissa exp2
  case zero =>
    have ho : ¬mantissa ≥ overflow := by unfold overflow; omega
    refine ⟨mantissa, exp2, h₀, not_le.mp ho, fun fuel hf => ?_⟩
    obtain ⟨fuel, rfl⟩ := Nat.exists_eq_add_of_lt hf
    rw [shrink, if_neg ho]
  case succ j hi =>
    by_cases ho : mantissa ≥ overflow
    case neg =>
      refine ⟨mantissa, exp2, h₀, not_le.mp ho, fun fuel hf => ?_⟩
      obtain ⟨fuel, rfl⟩ := Nat.exists_eq_add_of_lt hf
      rw [shrink, if_neg ho]
    case pos =>
      have hp : 2 ^ (52 + (j + 1)) = 2 * 2 ^ (52 + j) := by ring
      have ⟨m, e, hm, hmo, hs⟩ := hi (int (exp2 + 1))
        (show 0 < roundHalf mantissa by unfold roundHalf; unfold overflow at ho; omega)
        (by unfold roundHalf; omega)
      refine ⟨m, e, hm, hmo, fun fuel hf => ?_⟩
      obtain ⟨fuel, rfl⟩ := Nat.exists_eq_add_of_lt hf
      rw [shrink, if_pos ho]
      exact hs _ <| by omega

-- The exponent is the one of the doubled mantissa, as far as an `int` can tell.
theorem stretch_ends (exp2) (h₀ : 0 < mantissa) (ho : mantissa < overflow) (h : hidden ≤ mantissa * 2 ^ j) :
    ∃ (i : Nat) (e : Int), int e = int (exp2 - i) ∧ hidden ≤ mantissa * 2 ^ i ∧ mantissa * 2 ^ i < overflow ∧
      ∀ fuel > j, stretch fuel mantissa exp2 = some (mantissa * 2 ^ i, e) := by
  induction j generalizing mantissa exp2
  case zero =>
    rw [pow_zero, mul_one] at h
    refine ⟨0, exp2, by simp, by simpa using h, by simpa using ho, fun fuel hf => ?_⟩
    obtain ⟨fuel, rfl⟩ := Nat.exists_eq_add_of_lt hf
    rw [stretch, if_neg <| not_lt.mpr h, pow_zero, mul_one]
  case succ j hi =>
    by_cases hh : mantissa < hidden
    case neg =>
      have hh := not_lt.mp hh
      refine ⟨0, exp2, by simp, by simpa using hh, by simpa using ho, fun fuel hf => ?_⟩
      obtain ⟨fuel, rfl⟩ := Nat.exists_eq_add_of_lt hf
      rw [stretch, if_neg <| not_lt.mpr hh, pow_zero, mul_one]
    case pos =>
      have hu : unsignedLong (mantissa <<< 1) = mantissa * 2 := by
        unfold unsignedLong
        rw [Nat.shiftLeft_eq, pow_one]
        unfold hidden at hh
        omega
      have ⟨i, e, he, hl, hlt, hs⟩ := hi (int (exp2 - 1))
        (show 0 < mantissa * 2 by omega) (by unfold hidden at hh; unfold overflow; omega) (by rwa [mul_assoc, ←pow_succ'])
      rw [mul_assoc, ←pow_succ'] at hl hlt hs
      refine ⟨i + 1, e, ?_, hl, hlt, fun fuel hf => ?_⟩
      · rw [he]
        unfold int
        rw [Int.bmod_sub_bmod]
        congr 1
        push_cast
        ring
      · obtain ⟨fuel, rfl⟩ := Nat.exists_eq_add_of_lt hf
        rw [stretch, if_pos hh, hu]
        exact hs _ <| by omega

end Loops

section Results

theorem toNat_packed {x f : Nat} (hx : x < 2 ^ 11) (hf : f < 2 ^ 52) :
    (BitVec.ofInt 64 x <<< 52 ||| BitVec.ofNat 64 f).toNat = x * 2 ^ 52 + f := by
  rw [BitVec.ofInt_natCast, BitVec.toNat_or, BitVec.toNat_shiftLeft, BitVec.toNat_ofNat, BitVec.toNat_ofNat,
    Nat.mod_eq_of_lt (hx.trans <| by decide), Nat.mod_eq_of_lt (hf.trans <| by decide), Nat.shiftLeft_eq,
    Nat.mod_eq_of_lt, ←Nat.shiftLeft_eq, ←Nat.shiftLeft_add_eq_or_of_lt hf, Nat.shiftLeft_eq]
  omega

-- The code after the loops.
def pack (mantissa : Nat) (exp2 : Int) : Double :=
  let exponent := int (exp2 + 52)
  if exponent ≤ -1023 then 0
  else if exponent ≥ 1024 then 0x7ff0000000000000#64
  else BitVec.ofInt 64 (exponent + 1023) <<< 52 ||| BitVec.ofNat 64 (mantissa - hidden)

theorem pack_normal {x : Nat} (he : int (exp2 + 52) + 1023 = x) (h₁ : 1 ≤ x) (h₂ : x ≤ 2046)
    (ho : mantissa < overflow) : (pack mantissa exp2).toNat = x * 2 ^ 52 + (mantissa - hidden) := by
  unfold pack
  rw [if_neg (by omega), if_neg (by omega), he]
  refine toNat_packed (by omega) ?_
  unfold overflow at ho
  unfold hidden
  omega

theorem pack_nonnegative (exp2) (ho : mantissa < overflow) : (pack mantissa exp2).toNat < 2 ^ 63 := by
  by_cases h₁ : int (exp2 + 52) ≤ -1023
  case pos => simp [pack, h₁]
  case neg =>
    by_cases h₂ : int (exp2 + 52) ≥ 1024
    case pos => simp [pack, h₁, h₂]
    case neg =>
      have ⟨x, hx⟩ := Int.eq_ofNat_of_zero_le (a := int (exp2 + 52) + 1023) (by omega)
      rw [pack_normal hx (by omega) (by omega) ho]
      unfold overflow at ho
      unfold hidden
      omega

theorem doubleFromScaledUint64_loops {m m' : Nat} {e e' : Int} (h₀ : mantissa ≠ 0)
    (hs : shrink halve fuel mantissa exp2 = some (m, e)) (ht : stretch fuel m e = some (m', e')) :
    doubleFromScaledUint64 halve fuel mantissa exp2 = some (pack m' e') := by
  simp only [doubleFromScaledUint64, if_neg h₀, hs, ht, Option.bind_eq_bind, Option.bind_some, pack]
  split_ifs <;> rfl

theorem scaled_ends (exp2) (h₀ : 0 < mantissa) (h : mantissa ≤ ulongMax) :
    ∃ m e, m < overflow ∧ ∀ fuel ≥ 64, doubleFromScaledUint64 roundHalf fuel mantissa exp2 = some (pack m e) := by
  have ⟨m, e, hm, hmo, hs⟩ := shrink_ends (j := 12) exp2 h₀ (by unfold ulongMax at h; omega)
  have ⟨i, e', _, _, hlt, ht⟩ := stretch_ends (j := 52) e hm hmo (by unfold hidden; omega)
  exact ⟨_, e', hlt, fun fuel hf =>
    doubleFromScaledUint64_loops (Nat.ne_of_gt h₀) (hs fuel <| by omega) <| ht fuel <| by omega⟩

-- A double for a number `significand * 2 ^ (exponent - 1075)` in the normal range.
def Denotes (d : Double) (value : ℚ) : Prop :=
  ∃ exponent fraction : Nat, 1 ≤ exponent ∧ exponent ≤ 2046 ∧ fraction < 2 ^ 52 ∧
    d.toNat = exponent * 2 ^ 52 + fraction ∧ value = (2 ^ 52 + fraction) * 2 ^ (exponent - 1075 : ℤ)

-- Nothing is rounded if the mantissa has at most 53 bits.
theorem scaled_exact (h₀ : 0 < mantissa) (ho : mantissa < overflow) (hl : (2 : ℚ) ^ (-1022 : ℤ) ≤ mantissa * 2 ^ exp2)
    (hh : mantissa * (2 : ℚ) ^ exp2 < 2 ^ (1024 : ℤ)) :
    ∃ d, Yields (doubleFromScaledUint64 roundHalf · mantissa exp2) d ∧ Denotes d (mantissa * 2 ^ exp2) := by
  have ⟨i, e, he, hi, hlt, ht⟩ := stretch_ends (j := 52) exp2 h₀ ho (by unfold hidden; omega)
  have hv : (mantissa : ℚ) * 2 ^ exp2 = (mantissa * 2 ^ i : ℕ) * 2 ^ (exp2 - i) := by
    push_cast
    rw [mul_assoc, ←zpow_natCast, ←zpow_add₀ two_ne_zero]
    congr 2
    ring
  generalize hE : exp2 - i = E at hv he
  generalize hM : mantissa * 2 ^ i = M at hv hi hlt ht
  rw [hv] at hl hh
  have hM₁ : (2 : ℚ) ^ (52 : ℤ) ≤ M := by exact_mod_cast hi
  have hM₂ : (M : ℚ) < 2 ^ (53 : ℤ) := by exact_mod_cast hlt
  have hp : (0 : ℚ) < 2 ^ E := zpow_pos two_pos E
  have hlo : -1022 < 53 + E := by
    refine (zpow_lt_zpow_iff_right₀ (one_lt_two : (1 : ℚ) < 2)).mp <| hl.trans_lt ?_
    rw [zpow_add₀ two_ne_zero]
    exact mul_lt_mul_of_pos_right hM₂ hp
  have hhi : 52 + E < 1024 := by
    refine (zpow_lt_zpow_iff_right₀ (one_lt_two : (1 : ℚ) < 2)).mp <| lt_of_le_of_lt ?_ hh
    rw [zpow_add₀ two_ne_zero]
    exact mul_le_mul_of_nonneg_right hM₁ hp.le
  have hx : int (e + 52) = E + 52 := by
    have hc : int (e + 52) = int (E + 52) := Int.add_bmod_eq_add_bmod_right 52 he
    rw [hc]
    exact Int.bmod_eq_of_le (by norm_num; omega) (by norm_num; omega)
  have ⟨x, hE'⟩ := Int.eq_ofNat_of_zero_le (a := E + 1075) (by omega)
  have hp : (pack M e).toNat = x * 2 ^ 52 + (M - hidden) :=
    pack_normal (by omega) (by omega) (by omega) hlt
  refine ⟨pack M e, ⟨64, fun fuel hf => ?_⟩, x, M - hidden, by omega, by omega, ?_, hp, ?_⟩
  · have hs : shrink roundHalf fuel mantissa exp2 = some (mantissa, exp2) := by
      obtain ⟨fuel, rfl⟩ := Nat.exists_eq_add_of_lt <| Nat.zero_lt_of_lt hf
      rw [shrink, if_neg <| not_le.mpr ho]
    exact doubleFromScaledUint64_loops (Nat.ne_of_gt h₀) hs <| ht fuel <| by omega
  · unfold overflow at hlt
    unfold hidden at hi ⊢
    omega
  · rw [hv, Nat.cast_sub hi]
    have hx' : (x - 1075 : ℤ) = E := by omega
    rw [hx', hidden]
    push_cast
    ring

end Results
end Hcc.Strtod
