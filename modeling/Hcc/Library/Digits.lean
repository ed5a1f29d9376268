import Mathlib.Tactic.Ring
import Mathlib.Tactic.Linarith
import Mathlib.Tactic.LinearCombination
import Mathlib.Tactic.Positivity
import Mathlib.Algebra.Order.Group.Unbundled.Int

-- Little-endian digit strings over an arbitrary base, with digits that are integers: a digit may
-- lie outside of `[0, base)` until its carry has been propagated.
namespace Digits

variable {base : Int} {ds as bs : List Int}

def value (base : Int) : List Int → Int
  | []      => 0
  | d :: ds => d + base * value base ds

-- A digit string is `Proper` if each of its digits is between `0` and the base.
def Proper (base : Int) (ds : List Int) : Prop :=
  ∀ d ∈ ds, 0 ≤ d ∧ d < base

-- Adds `carry` to the lowest digit and reduces every digit to the range of the base, passing the
-- excess on to the next digit. The excess of the last digit is dropped.
def propagate (base : Int) (carry : Int) : List Int → List Int
  | []      => []
  | d :: ds => (d + carry) % base :: propagate base ((d + carry) / base) ds

@[simp]
theorem value_nil : value base [] = 0 := rfl

@[simp]
theorem value_cons : value base (d :: ds) = d + base * value base ds := rfl

@[simp]
theorem Proper.nil : Proper base [] := nofun

@[simp]
theorem proper_cons : Proper base (d :: ds) ↔ (0 ≤ d ∧ d < base) ∧ Proper base ds := by
  simp [Proper]

theorem Proper.tail (h : Proper base (d :: ds)) : Proper base ds :=
  (proper_cons.mp h).right

theorem Proper.append (ha : Proper base as) (hb : Proper base bs) : Proper base (as ++ bs) :=
  fun d hd => (List.mem_append.mp hd).elim (ha d) (hb d)

theorem Proper.reverse (h : Proper base ds) : Proper base ds.reverse :=
  fun d hd => h d (List.mem_reverse.mp hd)

theorem Proper.take (h : Proper base ds) : Proper base (ds.take n) :=
  fun d hd => h d (List.mem_of_mem_take hd)

theorem proper_replicate (h₀ : 0 ≤ d) (hb : d < base) : Proper base (List.replicate n d) :=
  fun _ hd => List.eq_of_mem_replicate hd ▸ ⟨h₀, hb⟩

theorem value_append : value base (as ++ bs) = value base as + base ^ as.length * value base bs := by
  induction as <;> simp
  case cons d as hi => rw [hi, pow_succ]; ring

theorem value_replicate_zero : value base (List.replicate n 0) = 0 := by
  induction n <;> simp_all [List.replicate_succ]

theorem value_replicate_max : value base (List.replicate n (base - 1)) = base ^ n - 1 := by
  induction n <;> simp_all [List.replicate_succ, pow_succ]
  ring

theorem value_map_mul : value base (ds.map (· * f)) = f * value base ds := by
  induction ds <;> simp
  case cons d ds hi => rw [hi]; ring

theorem value_map_complement :
    value base (ds.map (base - 1 - ·)) = base ^ ds.length - 1 - value base ds := by
  induction ds <;> simp
  case cons d ds hi => rw [hi, pow_succ]; ring

theorem value_zipWith_add (h : as.length = bs.length) :
    value base (List.zipWith (· + ·) as bs) = value base as + value base bs := by
  induction as generalizing bs <;> cases bs <;> simp at *
  case cons.cons hi _ _ => rw [hi h]; ring

theorem Proper.value_nonneg (h : Proper base ds) : 0 ≤ value base ds := by
  induction ds <;> simp at *
  case cons hi =>
    have := hi h.right
    have : 0 ≤ base := by linarith [h.left.left, h.left.right]
    have := h.left.left
    positivity

theorem Proper.value_lt (hb : 0 < base) (h : Proper base ds) : value base ds < base ^ ds.length := by
  induction ds <;> simp at *
  case cons d ds hi =>
    have := mul_le_mul_of_nonneg_left (Int.add_one_le_of_lt <| hi h.right) hb.le
    calc d + base * value base ds
      _ < base * (value base ds + 1)  := by linarith [h.left.right]
      _ ≤ base * base ^ ds.length     := this
      _ = base ^ (ds.length + 1)      := (pow_succ' ..).symm

theorem Proper.value_emod (hb : 0 < base) (h : Proper base ds) :
    value base ds % base ^ ds.length = value base ds :=
  Int.emod_eq_of_lt h.value_nonneg (h.value_lt hb)

theorem emod_mul (hb : 0 < base) : x % (base * m) = x % base + base * (x / base % m) := by
  have h₁ := Int.emod_add_mul_ediv x (base * m)
  have h₂ := Int.emod_add_mul_ediv x base
  have h₃ := Int.emod_add_mul_ediv (x / base) m
  rw [Int.ediv_ediv_of_nonneg hb.le] at h₃
  linear_combination h₁ - h₂ - base * h₃

@[simp]
theorem length_propagate : (propagate base c ds).length = ds.length := by
  induction ds generalizing c <;> simp_all [propagate]

theorem proper_propagate (hb : 0 < base) : Proper base (propagate base c ds) := by
  induction ds generalizing c <;> simp_all [propagate, Int.emod_nonneg, Int.emod_lt_of_pos, hb.ne']

theorem value_propagate (hb : 0 < base) :
    value base (propagate base c ds) = (value base ds + c) % base ^ ds.length := by
  induction ds generalizing c <;> simp [propagate]
  case cons d ds hi =>
    have hq : (d + base * value base ds + c) / base = value base ds + (d + c) / base := by
      rw [add_right_comm, Int.add_mul_ediv_left _ _ hb.ne', add_comm]
    rw [hi, pow_succ', emod_mul hb, hq, add_right_comm d, Int.add_mul_emod_self_left]

-- Two proper digit strings of one length with the same value are the same string.
theorem Proper.eq_of_value_eq (hb : 0 < base) (ha : Proper base as) (hb' : Proper base bs)
    (hl : as.length = bs.length) (hv : value base as = value base bs) : as = bs := by
  induction as generalizing bs <;> cases bs <;> simp at *
  case cons.cons a as hi b bs =>
    have hm := congrArg (· % base) hv
    simp [Int.emod_eq_of_lt ha.left.left ha.left.right,
      Int.emod_eq_of_lt hb'.left.left hb'.left.right] at hm
    subst hm
    simp [hb.ne'] at hv
    exact ⟨rfl, hi ha.right hb'.right hl hv⟩

-- Comparing proper digit strings of one length from their highest digit on compares their values.
theorem Proper.reverse_lt_iff (hb : 0 < base) (ha : Proper base as) (hb' : Proper base bs)
    (hl : as.length = bs.length) : as.reverse < bs.reverse ↔ value base as < value base bs := by
  induction as using List.reverseRecOn generalizing bs
  case nil => simp_all [List.length_eq_zero_iff.mp hl.symm]
  case append_singleton as a hi =>
    obtain ⟨bs, b, rfl⟩ : ∃ bs' b, bs = bs' ++ [b] := by
      have : bs ≠ [] := by rintro rfl; simp at hl
      exact ⟨_, _, (List.dropLast_append_getLast this).symm⟩
    simp at hl
    have ha' : Proper base as := fun d hd => ha d (by simp [hd])
    have hb'' : Proper base bs := fun d hd => hb' d (by simp [hd])
    have hva := ha'.value_lt hb
    have hvb := hb''.value_lt hb
    have := ha'.value_nonneg
    have := hb''.value_nonneg
    simp only [List.reverse_append, List.reverse_singleton, List.singleton_append,
      List.cons_lt_cons_iff, hi ha' hb'' hl, value_append, value_cons, value_nil, hl]
    rw [hl] at hva
    constructor
    case mp =>
      rintro (h | ⟨rfl, h⟩)
      case inl =>
        have := mul_le_mul_of_nonneg_left (Int.add_one_le_of_lt h) (pow_nonneg hb.le bs.length)
        linarith
      case inr => linarith
    case mpr =>
      intro h
      rcases lt_trichotomy a b with hab | rfl | hab
      · exact .inl hab
      · exact .inr ⟨rfl, by linarith⟩
      · have := mul_le_mul_of_nonneg_left (Int.add_one_le_of_lt hab) (pow_nonneg hb.le bs.length)
        linarith

-- The bits of a number, lowest first, are its digits in base two.
def bits (n : Nat) (x : Int) : List Int :=
  propagate 2 x (List.replicate n 0)

@[simp]
theorem length_bits : (bits n x).length = n := by
  simp [bits]

theorem value_bits : value 2 (bits n x) = x % 2 ^ n := by
  simp [bits, value_propagate, value_replicate_zero]

theorem proper_bits : Proper 2 (bits n x) :=
  proper_propagate two_pos

-- Schoolbook long division in base two: the bits of the dividend are consumed from the highest one
-- on, starting from the quotient `q` and the remainder `r` of the bits consumed so far.
def longDivide (divisor : Int) : List Int → Int → Int → Int × Int
  | [],        q, r => (q, r)
  | bit :: bs, q, r =>
    let trial := 2 * r + bit
    if divisor ≤ trial then
      longDivide divisor bs (2 * q + 1) (trial - divisor)
    else
      longDivide divisor bs (2 * q) trial

-- The invariant of long division: quotient and remainder represent the consumed part of the
-- dividend, and the remainder stays below the divisor.
theorem longDivide_spec (hp : Proper 2 bs) (h₀ : 0 ≤ r) (hr : r < divisor) :
    let (q', r') := longDivide divisor bs q r
    q' * divisor + r' = (q * divisor + r) * 2 ^ bs.length + value 2 bs.reverse ∧
      0 ≤ r' ∧ r' < divisor := by
  induction bs generalizing q r <;> simp only [longDivide]
  case nil => simp [h₀, hr]
  case cons bit bs hi =>
    have ⟨⟨_, _⟩, hp'⟩ := proper_cons.mp hp
    simp only [List.reverse_cons, value_append, value_cons, value_nil, List.length_cons,
      List.length_reverse, pow_succ]
    split
    case isTrue =>
      have ⟨h, hb⟩ := hi (q := 2 * q + 1) hp' (by linarith : 0 ≤ 2 * r + bit - divisor) (by linarith)
      exact ⟨h.trans (by ring), hb⟩
    case isFalse =>
      have ⟨h, hb⟩ := hi (q := 2 * q) hp' (by linarith : 0 ≤ 2 * r + bit) (by linarith)
      exact ⟨h.trans (by ring), hb⟩

theorem longDivide_eq (hp : Proper 2 bs) (hd : 0 < divisor) :
    longDivide divisor bs 0 0 =
      (value 2 bs.reverse / divisor, value 2 bs.reverse % divisor) := by
  have ⟨h, h₀, hr⟩ := longDivide_spec (q := 0) hp le_rfl hd
  have hv : (longDivide divisor bs 0 0).2 + divisor * (longDivide divisor bs 0 0).1 =
      value 2 bs.reverse := by
    linarith
  have ⟨hq, hr⟩ := (Int.ediv_emod_unique hd).mpr ⟨hv, h₀, hr⟩
  exact Prod.ext hq.symm hr.symm

end Digits
