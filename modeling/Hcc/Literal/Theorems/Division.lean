import Hcc.Literal.Theorems.ByteWord

open Digits

namespace Hcc

variable {as bs q r divisor : List Int} {consumed todo : List Int} {bit : Int}

-- One iteration of the long division, on the quotient and the remainder so far.
def constWordDivide.step (divisor : List Int) (state : List Int × List Int) (bit : Int) : List Int × List Int :=
  let trial := byteWordAddSmallCarry bit (byteWordMulSmall 2 state.2)
  let fits := decide (constWordCompare trial divisor ≥ 0)
  (byteWordAddSmallCarry (boolToInt fits) (byteWordMulSmall 2 state.1),
    if fits then constWordAdd trial (constWordNegate divisor) else trial)

theorem constWordDivide.go_eq_foldl : go as divisor todo q r =
    ((todo.foldl (step divisor) (q, r)).1, (todo.foldl (step divisor) (q, r)).2.take as.length) := by
  induction todo generalizing q r
  case nil               => rfl
  case cons bit more hi => exact hi

-- The invariant of the long division: the remainder has one byte more than the words and stays below the divisor, and the
-- quotient and the remainder represent the bits that have been consumed.
structure Divided (as bs consumed : List Int) (state : List Int × List Int) : Prop where
  quotient  : state.1.length = as.length ∧ Proper 256 state.1
  remainder : state.2.length = as.length + 1 ∧ Proper 256 state.2
  below     : value 256 state.2 < value 256 bs
  exact     : value 256 state.1 * value 256 bs + value 256 state.2 = value 2 consumed.reverse

theorem value_append_zero : value 256 (bs ++ [0]) = value 256 bs := by
  simp [value_append]

theorem Divided.step {state} (h : Divided as bs consumed state) (hb : Proper 256 bs) (hl : as.length = bs.length)
    (hbit : 0 ≤ bit ∧ bit < 2) (hc : Proper 2 consumed) (hn : consumed.length < 8 * as.length) :
    Divided as bs (consumed ++ [bit]) (constWordDivide.step (bs ++ [0]) state bit) := by
  have ⟨⟨hql, hqp⟩, ⟨hrl, hrp⟩, hr, he⟩ := h
  have hq₀ := hqp.value_nonneg
  have hr₀ := hrp.value_nonneg
  have ⟨hb₀, hblt⟩ := value_bounds hb
  rw [←hl] at hblt
  -- The quotient is at most the number that the consumed bits represent, so doubling it does not overflow.
  have hq : 2 * value 256 state.1 + 1 < 256 ^ as.length := by
    have hv := hc.reverse.value_lt two_pos
    have hle : value 256 state.1 * 1 ≤ value 256 state.1 * value 256 bs := mul_le_mul_of_nonneg_left (by omega) hq₀
    have hp : (2 : Int) ^ (consumed.length + 1) ≤ 2 ^ (8 * as.length) := pow_le_pow_right₀ one_le_two hn
    rw [List.length_reverse] at hv
    rw [pow_succ, pow_mul] at hp
    norm_num at hp
    omega
  have htrial : value 256 (byteWordAddSmallCarry bit (byteWordMulSmall 2 state.2)) = 2 * value 256 state.2 + bit := by
    rw [value_byteWordAddSmallCarry, value_byteWordMulSmall, length_byteWordMulSmall, hrl, pow_succ,
      Int.emod_eq_of_lt (a := 2 * _) (by omega) (by omega), Int.emod_eq_of_lt (by omega) (by omega)]
  have hquot (fits : Int) (h₀ : 0 ≤ fits) (h₁ : fits ≤ 1) :
      value 256 (byteWordAddSmallCarry fits (byteWordMulSmall 2 state.1)) = 2 * value 256 state.1 + fits := by
    rw [value_byteWordAddSmallCarry, value_byteWordMulSmall, length_byteWordMulSmall, hql,
      Int.emod_eq_of_lt (a := 2 * _) (by omega) (by omega), Int.emod_eq_of_lt (by omega) (by omega)]
  have hcmp : constWordCompare (byteWordAddSmallCarry bit (byteWordMulSmall 2 state.2)) (bs ++ [0]) ≥ 0 ↔
      value 256 bs ≤ 2 * value 256 state.2 + bit := by
    rw [constWordCompare_nonneg_iff proper_byteWordAddSmallCarry (hb.append (by simp)) (by simp [hrl, hl]),
      value_append_zero, htrial]
  have hbits : value 2 (consumed ++ [bit]).reverse = bit + 2 * value 2 consumed.reverse := by simp
  by_cases hf : value 256 bs ≤ 2 * value 256 state.2 + bit
  case pos =>
    have hsub : value 256 (constWordAdd (byteWordAddSmallCarry bit (byteWordMulSmall 2 state.2))
        (constWordNegate (bs ++ [0]))) = 2 * value 256 state.2 + bit - value 256 bs := by
      rw [value_constWordAdd (by simp [hrl, hl]), htrial, value_constWordNegate, value_append_zero, List.length_append,
        ←hl, length_byteWordAddSmallCarry, length_byteWordMulSmall, hrl, List.length_singleton, Int.add_emod_emod,
        ←sub_eq_add_neg, pow_succ, Int.emod_eq_of_lt (by omega) (by omega)]
    have hone := hquot 1 (by decide) (by decide)
    simp only [constWordDivide.step, hcmp.mpr hf, decide_true, if_true, boolToInt]
    refine ⟨⟨by simp [hql], proper_byteWordAddSmallCarry⟩, ⟨by simp [hrl, hl], proper_constWordAdd⟩, ?_, ?_⟩
    · rw [hsub]
      omega
    · rw [hone, hsub, hbits, ←he]
      ring
  case neg =>
    have hzero := hquot 0 (by decide) (by decide)
    simp only [constWordDivide.step, mt hcmp.mp hf, decide_false, Bool.false_eq_true, if_false, boolToInt]
    refine ⟨⟨by simp [hql], proper_byteWordAddSmallCarry⟩, ⟨by simp [hrl], proper_byteWordAddSmallCarry⟩, ?_, ?_⟩
    · rw [htrial]
      omega
    · rw [hzero, htrial, hbits, ←he]
      ring

theorem Divided.foldl {state} (h : Divided as bs consumed state) (hb : Proper 256 bs) (hl : as.length = bs.length)
    (hp : Proper 2 (consumed ++ todo)) (hn : (consumed ++ todo).length ≤ 8 * as.length) :
    Divided as bs (consumed ++ todo) (todo.foldl (constWordDivide.step (bs ++ [0])) state) := by
  induction todo generalizing consumed state
  case nil               => simpa using h
  case cons bit more hi =>
    have hc : Proper 2 consumed := fun d hd => hp d <| List.mem_append_left _ hd
    have hbit := hp bit <| List.mem_append_right _ <| .head _
    simp only [List.length_append, List.length_cons] at hn
    have hs := h.step hb hl hbit hc (by omega)
    rw [List.append_cons] at hp ⊢
    exact hi hs hp (by simp; omega)

-- The long division starts without any bits, and it consumes the bits of the dividend from the highest one on.
theorem constWordDivide_run (hb : Proper 256 bs) (hl : as.length = bs.length) (h₀ : value 256 bs ≠ 0)
    (hc : (as.flatMap (bits 8)).reverse = consumed ++ rest) :
    Divided as bs consumed (consumed.foldl (constWordDivide.step (bs ++ [0])) (as.map fun _ => 0, (as.map fun _ => 0) ++ [0])) := by
  have hbits := hc ▸ (proper_flatMap_bits as).reverse
  have hz : Proper 256 ((as.map fun _ => (0 : Int)) ++ [0]) := proper_zeros.append (by simp)
  have hb₀ := hb.value_nonneg
  have hlen := congrArg List.length hc
  rw [List.length_reverse, length_flatMap_bits, List.length_append] at hlen
  have hstart : Divided as bs [] (as.map fun _ => 0, (as.map fun _ => 0) ++ [0]) := by
    refine ⟨⟨by simp, proper_zeros⟩, ⟨by simp, hz⟩, ?_, ?_⟩
    · rw [value_append_zero, value_zeros]
      omega
    · rw [value_append_zero, value_zeros]
      simp
  exact hstart.foldl hb hl (fun d hd => hbits d <| List.mem_append_left _ hd) (by simp; omega)

-- The long division of byte words is exact, and its invariant holds after every bit.
theorem constWordDivide_exact (ha : Proper 256 as) (hb : Proper 256 bs) (hl : as.length = bs.length)
    (h₀ : value 256 bs ≠ 0) :
    (∃ q r, constWordDivide as bs = (q, r) ∧ (q.length = as.length ∧ Proper 256 q) ∧ (r.length = as.length ∧ Proper 256 r) ∧
      value 256 q = value 256 as / value 256 bs ∧ value 256 r = value 256 as % value 256 bs) ∧
    ∀ consumed rest, (as.flatMap (constWordDivide.byteBits 8)).reverse = consumed ++ rest →
      ∃ q r, consumed.foldl (constWordDivide.step (bs ++ [0])) (as.map fun _ => 0, (as.map fun _ => 0) ++ [0]) = (q, r) ∧
        constWordDivide as bs = constWordDivide.go as (bs ++ [0]) rest q r ∧
        value 256 r < value 256 bs ∧ value 256 q * value 256 bs + value 256 r = value 2 consumed.reverse := by
  have hf : constWordDivide.byteBits 8 = bits 8 := funext fun _ => byteBits_eq
  have ⟨hq, hr⟩ := value_constWordDivide ha hb hl h₀
  have ⟨hql, hrl⟩ := length_constWordDivide hl
  have ⟨hqp, hrp⟩ := @proper_constWordDivide as bs
  refine ⟨⟨_, _, rfl, ⟨hql, hqp⟩, ⟨hrl, hrp⟩, hq, hr⟩, fun consumed rest hc => ?_⟩
  have hd := constWordDivide_run hb hl h₀ (hf ▸ hc)
  refine ⟨_, _, rfl, ?_, hd.below, hd.exact⟩
  rw [constWordDivide, hc, constWordDivide.go_eq_foldl, constWordDivide.go_eq_foldl, List.foldl_append]

theorem constWordDivide_exact_byte :
    ∃ q r, constWordDivide [200] [7] = (q, r) ∧ value 256 q = 28 ∧ value 256 r = 4 := by
  have ⟨⟨q, r, h, _, _, hq, hr⟩, _⟩ :=
    @constWordDivide_exact [200] [7] (by simp) (by simp) rfl (by decide)
  exact ⟨q, r, h, hq, hr⟩

end Hcc
