import Hcc.Strtod.Basic
import Mathlib.Algebra.Order.Ring.Nat
import Mathlib.Tactic.Linarith
import Mathlib.Tactic.Ring
import Mathlib.Data.List.TakeWhile
import Mathlib.Data.Rat.Cast.Order

namespace Hcc.Strtod.Mes

variable {s : Significand} {digit value count : Nat} {text : List Char}

-- The bases that `strtod` passes to `abtod`.
inductive Radix
  | decimal
  | hexadecimal

def Radix.base : Radix → Nat
  | decimal     => 10
  | hexadecimal => 16

variable {radix : Radix}

-- The number that the digits denote.
def digitsValue (base : Nat) (digits : List Char) : Nat :=
  digits.foldl (fun value c => value * base + hccStrtodDigitValue c) 0

-- The addition of the digit does not wrap around.
structure Fits (base digit : Nat) (s : Significand) : Prop where
  mul : (reduce (limit base digit) s).integer * base ≤ ulongMax
  add : (reduce (limit base digit) s).integer * base + addend digit (reduce (limit base digit) s).exp2 ≤ ulongMax

-- The significand after `count` digits that denote `value`.
structure Accurate (s : Significand) (value count : Nat) : Prop where
  exp2  : s.exp2 ≤ 4096
  large : 0 < s.exp2 → 2 ^ 59 ≤ s.integer
  le    : s.integer * 2 ^ s.exp2 ≤ value
  exact : value < 2 ^ 64 → s.exp2 = 0 ∧ s.integer = value
  error : s.exp2 < 4096 → (value - s.integer * 2 ^ s.exp2) * 2 ^ 58 ≤ count * value

theorem unsignedLong_of_le {n : Nat} (h : n ≤ ulongMax) : unsignedLong n = n :=
  Nat.mod_eq_of_lt <| Nat.lt_succ_of_le h

section Reduction

theorem nextExp2_eq {exp2 : Nat} (h : exp2 ≤ 4096) : nextExp2 exp2 = min (exp2 + 1) 4096 := by
  unfold nextExp2
  split <;> omega

theorem min_succ_add {a b c : Nat} : min (min (a + 1) c + b) c = min (a + (b + 1)) c := by
  omega

-- The significand is halved until it does not exceed the limit, and not once more.
theorem reduce_eq (limit : Nat) (h : s.exp2 ≤ 4096) :
    ∃ k, reduce limit s = ⟨s.integer / 2 ^ k, min (s.exp2 + k) 4096⟩ ∧ s.integer / 2 ^ k ≤ limit ∧
      (k = 0 ∨ ∃ j, k = j + 1 ∧ limit < s.integer / 2 ^ j) := by
  fun_induction reduce limit s
  case case1 s hl hi =>
    have hs : s.integer >>> 1 = s.integer / 2 := rfl
    have hn := nextExp2_eq h
    have ⟨k, hr, hk, hj⟩ := hi <| hn ▸ min_le_right _ _
    rw [hs, Nat.div_div_eq_div_mul, ←pow_succ'] at hk
    refine ⟨k + 1, ?_, hk, .inr ⟨k, rfl, ?_⟩⟩
    · have hr : reduce limit ⟨s.integer / 2, nextExp2 s.exp2⟩ =
          ⟨s.integer / 2 / 2 ^ k, min (nextExp2 s.exp2 + k) 4096⟩ := hr
      rw [hs, hr, hn, min_succ_add, Nat.div_div_eq_div_mul, ←pow_succ']
    · rcases hj with rfl | ⟨j, rfl, hj⟩
      · simpa using hl
      · rwa [hs, Nat.div_div_eq_div_mul, ←pow_succ'] at hj
  case case2 hl =>
    refine ⟨0, ?_, by simpa using hl, .inl rfl⟩
    rw [pow_zero, Nat.div_one, add_zero, min_eq_left h]

theorem le_limit (h : digit < radix.base) : 2 ^ 60 ≤ limit radix.base digit + 1 := by
  cases radix <;> simp only [Radix.base, limit, ulongMax] at * <;> omega

theorem limit_mul_le (h : digit < radix.base) :
    limit radix.base digit * radix.base + digit ≤ ulongMax := by
  have hm := Nat.div_mul_le_self (ulongMax - digit) radix.base
  have hd : digit ≤ ulongMax := by
    cases radix <;> simp only [Radix.base, ulongMax] at * <;> omega
  unfold limit
  omega

theorem addend_le {exp2 : Nat} : addend digit exp2 * 2 ^ exp2 ≤ digit := by
  unfold addend
  split
  case isTrue  => exact Nat.shiftRight_eq_div_pow .. ▸ Nat.div_mul_le_self digit _
  case isFalse => simp

-- What is left of the significand when a part of it has been discarded.
theorem reduce_large (h : s.exp2 ≤ 4096) (hl : 0 < s.exp2 → 2 ^ 59 ≤ s.integer) (hd : digit < radix.base) :
    ∃ k, reduce (limit radix.base digit) s = ⟨s.integer / 2 ^ k, min (s.exp2 + k) 4096⟩ ∧
      s.integer / 2 ^ k ≤ limit radix.base digit ∧ (0 < s.exp2 + k → 2 ^ 59 ≤ s.integer / 2 ^ k) ∧
      (s.integer ≤ limit radix.base digit → k = 0) := by
  have ⟨k, hr, hk, hj⟩ := reduce_eq (limit radix.base digit) h
  have hm := le_limit hd
  refine ⟨k, hr, hk, ?_, fun hs => ?_⟩
  · rcases hj with rfl | ⟨j, rfl, hj⟩
    · simpa using hl
    · intro _
      have hd := Nat.div_div_eq_div_mul s.integer (2 ^ j) 2
      rw [←pow_succ] at hd
      omega
  · rcases hj with rfl | ⟨j, rfl, hj⟩
    · rfl
    · exact absurd (hj.trans_le <| Nat.div_le_self _ _) <| not_lt.mpr hs

end Reduction

section Digits

theorem Accurate.fits (h : Accurate s value count) (hd : digit < radix.base) : Fits radix.base digit s := by
  have ⟨k, hr, hk, _⟩ := reduce_large h.exp2 h.large hd
  have hm := limit_mul_le hd
  have hi := Nat.mul_le_mul_right radix.base hk
  have ha : addend digit (min (s.exp2 + k) 4096) * 2 ^ min (s.exp2 + k) 4096 ≤ digit := addend_le
  have ha := (Nat.le_mul_of_pos_right _ <| Nat.two_pow_pos _).trans ha
  constructor
  all_goals rw [hr]; dsimp only; omega

-- What a division by a power of two discards is small if the quotient is large.
theorem discarded_le {x k y : Nat} (hy : y = x / 2 ^ k) (hl : 0 < k → 2 ^ 59 ≤ y) : x % 2 ^ k * 2 ^ 59 ≤ x := by
  rcases Nat.eq_zero_or_pos k with rfl | hk
  · simp [Nat.mod_one]
  · calc x % 2 ^ k * 2 ^ 59 ≤ 2 ^ k * y := Nat.mul_le_mul (Nat.mod_lt _ <| Nat.two_pow_pos k).le (hl hk)
      _ ≤ x := hy ▸ Nat.mul_div_le x _

-- The error of the digits so far grows with them, and the new one adds at most a part of `2 ^ 58`.
theorem error_step {v x y e k b d n : Nat} (hx : x * 2 ^ e ≤ v) (he : (v - x * 2 ^ e) * 2 ^ 58 ≤ n * v)
    (hy : y = x / 2 ^ k) (hl : 0 < e + k → 2 ^ 59 ≤ y) (hb : 2 ≤ b) :
    (v * b + d - (y * b + d / 2 ^ (e + k)) * 2 ^ (e + k)) * 2 ^ 58 ≤ (n + 1) * (v * b + d) := by
  have hk := discarded_le hy fun hk => hl <| by omega
  have hd : d % 2 ^ (e + k) * 2 ^ 59 ≤ v := by
    rcases Nat.eq_zero_or_pos (e + k) with hz | hp
    · simp [hz, Nat.mod_one]
    · calc d % 2 ^ (e + k) * 2 ^ 59 ≤ 2 ^ (e + k) * y :=
            Nat.mul_le_mul (Nat.mod_lt _ <| Nat.two_pow_pos _).le (hl hp)
        _ = y * 2 ^ k * 2 ^ e := by ring
        _ ≤ x * 2 ^ e := Nat.mul_le_mul_right _ <| hy ▸ Nat.div_mul_le_self x _
        _ ≤ v := hx
  have hv : v * b + d - (y * b + d / 2 ^ (e + k)) * 2 ^ (e + k) =
      (x % 2 ^ k * 2 ^ e + (v - x * 2 ^ e)) * b + d % 2 ^ (e + k) := by
    have hx' : x = y * 2 ^ k + x % 2 ^ k := hy ▸ (Nat.div_add_mod' x _).symm
    have hd' := Nat.div_add_mod' d (2 ^ (e + k))
    have hv' : v = y * 2 ^ k * 2 ^ e + x % 2 ^ k * 2 ^ e + (v - x * 2 ^ e) := by
      rw [←add_mul, ←hx', Nat.add_sub_cancel' hx]
    refine Nat.sub_eq_of_eq_add ?_
    calc v * b + d = (y * 2 ^ k * 2 ^ e + x % 2 ^ k * 2 ^ e + (v - x * 2 ^ e)) * b +
          (d / 2 ^ (e + k) * 2 ^ (e + k) + d % 2 ^ (e + k)) := by rw [←hv', hd']
      _ = _ := by ring
  have hk' : x % 2 ^ k * 2 ^ e * 2 ^ 59 ≤ v :=
    calc x % 2 ^ k * 2 ^ e * 2 ^ 59 = x % 2 ^ k * 2 ^ 59 * 2 ^ e := by ring
      _ ≤ x * 2 ^ e := Nat.mul_le_mul_right _ hk
      _ ≤ v := hx
  rw [hv]
  generalize x % 2 ^ k * 2 ^ e = p at hk' ⊢
  generalize v - x * 2 ^ e = q at he ⊢
  generalize d % 2 ^ (e + k) = r at hd ⊢
  nlinarith

theorem Accurate.addDigit (h : Accurate s value count) (hd : digit < radix.base) :
    Accurate (addDigit radix.base digit s) (value * radix.base + digit) (count + 1) := by
  have hf := h.fits hd
  have ⟨k, hr, hk, hl, hs⟩ := reduce_large h.exp2 h.large hd
  have hb : 2 ≤ radix.base := by cases radix <;> decide
  have hx : s.integer / 2 ^ k * 2 ^ min (s.exp2 + k) 4096 ≤ value :=
    calc s.integer / 2 ^ k * 2 ^ min (s.exp2 + k) 4096
      _ ≤ s.integer / 2 ^ k * 2 ^ (s.exp2 + k) :=
        Nat.mul_le_mul_left _ <| Nat.pow_le_pow_right Nat.two_pos <| min_le_left _ _
      _ = s.integer / 2 ^ k * 2 ^ k * 2 ^ s.exp2 := by ring
      _ ≤ s.integer * 2 ^ s.exp2 := Nat.mul_le_mul_right _ <| Nat.div_mul_le_self _ _
      _ ≤ value := h.le
  have he : Mes.addDigit radix.base digit s =
      ⟨s.integer / 2 ^ k * radix.base + addend digit (min (s.exp2 + k) 4096), min (s.exp2 + k) 4096⟩ := by
    have hm : s.integer / 2 ^ k * radix.base ≤ ulongMax := by simpa only [hr] using hf.mul
    have ha : s.integer / 2 ^ k * radix.base + addend digit (min (s.exp2 + k) 4096) ≤ ulongMax := by
      simpa only [hr] using hf.add
    simp only [Mes.addDigit, hr, unsignedLong_of_le hm, unsignedLong_of_le ha]
  rw [he]
  constructor
  case exp2  => exact min_le_right _ _
  case large =>
    intro hp
    dsimp only at hp ⊢
    have hl := hl <| by omega
    have hm := Nat.mul_le_mul hl hb
    omega
  case le    =>
    have ha : addend digit (min (s.exp2 + k) 4096) * 2 ^ min (s.exp2 + k) 4096 ≤ digit := addend_le
    dsimp only
    nlinarith
  case exact =>
    intro hv
    have hlt : value < 2 ^ 64 := by nlinarith
    have ⟨hz, hi⟩ := h.exact hlt
    have hk : k = 0 := by
      refine hs ?_
      rw [hi, limit, Nat.le_div_iff_mul_le (by omega), ulongMax]
      omega
    subst hk
    simp [hz, hi, addend]
  case error =>
    intro hp
    dsimp only at hp ⊢
    have hm : min (s.exp2 + k) 4096 = s.exp2 + k := by omega
    rw [hm]
    have ha : addend digit (s.exp2 + k) = digit / 2 ^ (s.exp2 + k) := by
      unfold addend
      split
      case isTrue  => exact Nat.shiftRight_eq_div_pow ..
      case isFalse hn =>
        have hd : digit < 2 ^ 64 := by cases radix <;> simp only [Radix.base] at hd <;> omega
        have hn := Nat.pow_le_pow_right Nat.two_pos <| not_lt.mp hn
        exact (Nat.div_eq_of_lt <| hd.trans_le hn).symm
    rw [ha]
    exact error_step h.le (h.error <| by omega) rfl hl hb

def isDigit (base : Nat) (c : Char) : Bool :=
  hccStrtodDigitValue c < base

theorem Accurate.integerDigits {digits : List Char} (h : Accurate s value count)
    (hd : ∀ c ∈ digits, isDigit radix.base c) : Accurate (integerDigits radix.base s digits).1
      (digits.foldl (fun value c => value * radix.base + hccStrtodDigitValue c) value)
      (count + digits.length) := by
  induction digits generalizing s value count
  case nil          => exact h
  case cons c _ hi =>
    have ⟨hc, hd⟩ := List.forall_mem_cons.mp hd
    have hc : hccStrtodDigitValue c < radix.base := of_decide_eq_true hc
    rw [Mes.integerDigits, if_pos hc, List.foldl_cons, List.length_cons, Nat.add_comm _ 1, ←Nat.add_assoc]
    exact hi (h.addDigit hc) hd

theorem accurate_zero : Accurate ⟨0, 0⟩ 0 0 where
  exp2    := Nat.zero_le _
  large h := absurd h <| lt_irrefl 0
  le      := le_rfl
  exact _ := ⟨rfl, rfl⟩
  error _ := Nat.zero_le _

-- The loop reads the digits, and stops at the first character that is not a digit.
theorem integerDigits_append {base : Nat} {digits rest : List Char} (hd : ∀ c ∈ digits, isDigit base c) :
    integerDigits base s (digits ++ rest) = integerDigits base (integerDigits base s digits).1 rest := by
  induction digits generalizing s
  case nil          => rfl
  case cons c _ hi =>
    have ⟨hc, hd⟩ := List.forall_mem_cons.mp hd
    have hc : hccStrtodDigitValue c < base := of_decide_eq_true hc
    rw [List.cons_append, integerDigits, if_pos hc, integerDigits, if_pos hc]
    exact hi hd

theorem integerDigits_stop {base : Nat} {rest : List Char} (h : ∀ c, rest.head? = some c → ¬isDigit base c) :
    integerDigits base s rest = (s, rest) := by
  cases rest
  case nil    => rfl
  case cons c _ =>
    rw [integerDigits, if_neg fun hc => h c rfl <| decide_eq_true hc]

end Digits

-- The digits at the beginning of a text are those that the loop consumes. No step wraps around, and the
-- significand is close to their value.
theorem significand_accurate (radix : Radix) (text : List Char) :
    let base := radix.base
    let digits := text.takeWhile (isDigit base)
    let result := integerDigits base ⟨0, 0⟩ text
    let approximation := result.1.integer * 2 ^ result.1.exp2
    result.2 = text.dropWhile (isDigit base) ∧
    (∀ before c after, digits = before ++ c :: after →
      Fits base (hccStrtodDigitValue c) (integerDigits base ⟨0, 0⟩ before).1) ∧
    approximation ≤ digitsValue base digits ∧
    (digitsValue base digits < 2 ^ 64 → approximation = digitsValue base digits) ∧
    (result.1.exp2 < 4096 →
      (digitsValue base digits - approximation : ℚ) ≤
        digits.length * (1 / 2 ^ 58) * digitsValue base digits) := by
  intro base digits result approximation
  have hd : ∀ c ∈ digits, isDigit base c := fun _ hc => List.mem_takeWhile_imp hc
  have hr : result = ((integerDigits base ⟨0, 0⟩ digits).1, text.dropWhile (isDigit base)) := by
    have hs : text = digits ++ text.dropWhile (isDigit base) := List.takeWhile_append_dropWhile.symm
    have hn : ∀ c, (text.dropWhile (isDigit base)).head? = some c → ¬isDigit base c := by
      intro c hc
      have hn := List.head?_dropWhile_not (isDigit base) text
      rw [hc] at hn
      simpa using hn
    change integerDigits base ⟨0, 0⟩ text = _
    conv_lhs => rw [hs]
    rw [integerDigits_append hd, integerDigits_stop hn]
  have ha := accurate_zero.integerDigits hd
  rw [zero_add] at ha
  have hi : result.1 = (integerDigits base ⟨0, 0⟩ digits).1 := by rw [hr]
  have ha : Accurate result.1 (digitsValue base digits) digits.length := hi ▸ ha
  refine ⟨by rw [hr], ?_, ha.le, ?_, ?_⟩
  · intro before c after he
    have hd : ∀ d ∈ before ++ c :: after, isDigit base d := he ▸ hd
    have hc : isDigit base c := hd c <| by simp
    exact (accurate_zero.integerDigits fun d hm => hd d <| List.mem_append_left _ hm).fits <| of_decide_eq_true hc
  · intro hv
    have ⟨hz, he⟩ := ha.exact hv
    change result.1.integer * 2 ^ result.1.exp2 = _
    rw [hz, pow_zero, mul_one]
    exact he
  · intro hp
    have he := ha.error hp
    have hl : (approximation : ℚ) ≤ digitsValue base digits := by exact_mod_cast ha.le
    have he : ((digitsValue base digits - approximation : ℕ) * 2 ^ 58 : ℚ) ≤
        digits.length * digitsValue base digits := by exact_mod_cast he
    have hs : ((digitsValue base digits - approximation : ℕ) : ℚ) = digitsValue base digits - approximation :=
      Nat.cast_sub ha.le
    rw [hs] at he
    linarith

end Hcc.Strtod.Mes
