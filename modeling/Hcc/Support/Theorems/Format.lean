import Hcc.Support.Format
import Mathlib.Tactic.IntervalCases

namespace Hcc.Support

open Strtod (int)

variable {w stop : Nat} {o : Output} {cs cs' : List UInt8}

section Expansion

def bytes (cs : List Char) : List UInt8 :=
  cs.map Char.toUInt8

def spaces (n : Int) : List UInt8 :=
  List.replicate n.toNat ' '.toUInt8

def unsignedText (base n : Nat) : List UInt8 :=
  bytes <| Nat.toDigits base n

def signedText (n : Int) : List UInt8 :=
  if n < 0 then '-'.toUInt8 :: unsignedText 10 n.natAbs else unsignedText 10 n.natAbs

-- The lengths and the widths of texts are numbers of type `int`.
def justify (d : Directive) (text : List UInt8) : List UInt8 :=
  let padding := spaces (d.width - int text.length)
  if d.left then text ++ padding else padding ++ text

def Directive.text (strings : BitVec w → List UInt8) (value : BitVec w) (d : Directive) : List UInt8 :=
  match d.conversion with
  | none   => ['%'.toUInt8, 0]
  | some c =>
    if c = 's'.toUInt8 then justify d (textAt strings value)
    else if c = 'd'.toUInt8 ∨ c = 'i'.toUInt8 then justify d (signedText value.toInt)
    else if c = 'u'.toUInt8 then justify d (unsignedText 10 value.toNat)
    else if c = 'x'.toUInt8 ∨ c = 'X'.toUInt8 then justify d (unsignedText 16 value.toNat)
    else if c = 'c'.toUInt8 then justify d [.ofNat value.toNat]
    else if c = '%'.toUInt8 then ['%'.toUInt8]
    else ['%'.toUInt8, c]

-- The complete expansion of a format. The index of the next argument is `arg`.
def expansion (strings : BitVec w → List UInt8) (a b c : BitVec w) (arg : Int) :
    List UInt8 → List UInt8
  | []        => []
  | ch :: fmt =>
    if ch ≠ '%'.toUInt8 then ch :: expansion strings a b c arg fmt
    else
      let d := hccVformat.directive fmt
      let next := if d.1.conversion = some '%'.toUInt8 then arg else arg + 1
      d.1.text strings (hccFormatArg arg a b c) ++ expansion strings a b c (int next) d.2
termination_by fmt => fmt.length
decreasing_by
  · simp
  · exact Nat.lt_succ_of_le hccVformat.directive_length

end Expansion

section Append

theorem int_int_add {x y : Int} : int (int x + y) = int (x + y) :=
  Int.bmod_add_bmod

-- The bytes that are written for `cs`.
def put (stop : Nat) (o : Output) (cs : List UInt8) : Output :=
  cs.foldl (hccAppendChar stop) o

@[simp]
theorem put_nil : put stop o [] = o :=
  rfl

@[simp]
theorem put_cons {c : UInt8} : put stop o (c :: cs) = put stop (hccAppendChar stop o c) cs :=
  rfl

theorem put_append : put stop o (cs ++ cs') = put stop (put stop o cs) cs' :=
  List.foldl_append

theorem hccAppendString_eq : hccAppendString stop o cs = put stop o cs := by
  induction cs generalizing o
  case nil          => rfl
  case cons c cs hi => exact hi

theorem hccStringLen_eq {n : Int} (hn : int n = n) : hccStringLen n cs = int (n + cs.length) := by
  induction cs generalizing n
  case nil => simp [hccStringLen, hn]
  case cons c cs hi =>
    rw [hccStringLen, hi (by simpa using int_int_add (y := 0)), int_int_add, List.length_cons]
    congr 1
    omega

theorem hccAppendPadding_eq {width used : Int} :
    hccAppendPadding stop o width used = put stop o (spaces (width - used)) := by
  fun_induction hccAppendPadding stop o width used
  case case1 o width h hi =>
    rw [hi, spaces, spaces, show (width - used).toNat = (width - 1 - used).toNat + 1 by omega,
      List.replicate_succ, put_cons]
  case case2 o width h =>
    rw [spaces, Int.toNat_of_nonpos (by omega), List.replicate_zero, put_nil]

theorem length_unsignedText {base n : Nat} : (unsignedText base n).length = (Nat.toDigits base n).length :=
  List.length_map _

theorem hccUnsignedLen_eq {base value : Nat} (hb : 1 < base) :
    hccUnsignedLen value base = int (unsignedText base value).length := by
  rw [length_unsignedText]
  fun_induction hccUnsignedLen value base
  case case1 value h hi =>
    rw [Nat.toDigits_of_base_le hb h.1, List.length_append, hi, int_int_add]
    rfl
  case case2 value h =>
    rw [Nat.toDigits_of_lt_base (by omega), List.length_singleton]
    rfl

theorem digitChar_toUInt8 {d : Nat} (hd : d < 16) :
    d.digitChar.toUInt8 = .ofNat (if d < 10 then '0'.toNat + d else 'a'.toNat + d - 10) := by
  revert d
  decide

theorem digits_eq {base value : Nat} (hb : 1 < base) (hd : base ≤ 16) (hv : value ≠ 0) :
    hccAppendUnsigned.digits base value cs = unsignedText base value ++ cs := by
  fun_induction hccAppendUnsigned.digits base value cs
  case case1 value cs h digit d hi =>
    have hd : digit.digitChar.toUInt8 = .ofNat d :=
      digitChar_toUInt8 <| (Nat.mod_lt value (by omega)).trans_le hd
    by_cases hl : value < base
    case pos =>
      have hm : digit = value := Nat.mod_eq_of_lt hl
      rw [Nat.div_eq_of_lt hl, hccAppendUnsigned.digits, dif_neg (by omega), ←hd, unsignedText,
        Nat.toDigits_of_lt_base hl, hm]
      rfl
    case neg =>
      have hl := Nat.le_of_not_lt hl
      rw [hi (Nat.div_pos hl (by omega)).ne', ←hd, unsignedText, unsignedText,
        Nat.toDigits_of_base_le hb hl, bytes, bytes, List.map_append, List.append_assoc]
      rfl
  case case2 value cs h => omega

theorem hccAppendUnsigned_eq {base value : Nat} (hb : 1 < base) (hd : base ≤ 16) :
    hccAppendUnsigned stop o value base = put stop o (unsignedText base value) := by
  rw [hccAppendUnsigned]
  split
  case isTrue h  => rw [h, unsignedText, Nat.toDigits_zero]; rfl
  case isFalse h => rw [hccAppendString_eq, digits_eq hb hd h, List.append_nil]

-- The array `digits` has 32 elements.
theorem length_digits {value : BitVec w} (hw : w ≤ 64) {base : Nat} (hb : 10 ≤ base) (hd : base ≤ 16) :
    (hccAppendUnsigned.digits base value.toNat []).length ≤ 32 := by
  by_cases hv : value.toNat = 0
  case pos => simp [hv, hccAppendUnsigned.digits]
  case neg =>
    rw [digits_eq (by omega) hd hv, List.append_nil, length_unsignedText,
      Nat.length_toDigits_le_iff (by omega) (by decide)]
    calc
      value.toNat < 2 ^ w   := value.isLt
      _           ≤ 2 ^ 64  := Nat.pow_le_pow_right (by decide) hw
      _           ≤ 10 ^ 32 := by decide
      _           ≤ base ^ 32 := Nat.pow_le_pow_left hb 32

theorem toNat_neg_of_neg {value : BitVec w} (h : value.toInt < 0) : (-value).toNat = value.toInt.natAbs := by
  rw [BitVec.toInt_eq_toNat_cond] at h ⊢
  rw [BitVec.toNat_neg]
  have := value.isLt
  split at h
  case isTrue hl => omega
  case isFalse hl =>
    rw [if_neg hl, Nat.mod_eq_of_lt (by omega)]
    omega

theorem toNat_of_nonneg {value : BitVec w} (h : ¬value.toInt < 0) : value.toNat = value.toInt.natAbs := by
  rw [BitVec.toInt_eq_toNat_cond] at h ⊢
  have := value.isLt
  split at h <;> omega

theorem hccAppendSigned_eq {value : BitVec w} :
    hccAppendSigned stop o value = put stop o (signedText value.toInt) := by
  rw [hccAppendSigned, signedText]
  split
  case isTrue h  => rw [hccAppendUnsigned_eq (by decide) (by decide), toNat_neg_of_neg h, put_cons]
  case isFalse h => rw [hccAppendUnsigned_eq (by decide) (by decide), toNat_of_nonneg h]

theorem hccSignedLen_eq {value : BitVec w} :
    hccSignedLen value = int (signedText value.toInt).length := by
  rw [hccSignedLen, signedText]
  split
  case isTrue h =>
    rw [hccUnsignedLen_eq (by decide), toNat_neg_of_neg h, List.length_cons, Int.add_comm, int_int_add]
    rfl
  case isFalse h => rw [hccUnsignedLen_eq (by decide), toNat_of_nonneg h]

end Append

section Vformat

variable {strings : BitVec w → List UInt8} {a b c value : BitVec w} {d : Directive} {arg : Int}

theorem padded_eq {append : Output → Output} {used : Int} (ha : ∀ o, append o = put stop o cs)
    (hu : used = int cs.length) :
    hccVformat.padded stop d used append o = put stop o (justify d cs) := by
  simp only [hccVformat.padded, justify, ha, hu, hccAppendPadding_eq]
  cases d.left <;> simp [put_append]

theorem convert_eq :
    hccVformat.convert strings stop d value o = put stop o (d.text strings value) := by
  have hs (cs : List UInt8) : hccStringLen 0 cs = int cs.length := by
    simpa using hccStringLen_eq (n := 0) rfl
  unfold hccVformat.convert Directive.text
  cases d.conversion <;> dsimp only
  case none => rfl
  case some c =>
    split_ifs
    · exact padded_eq (fun _ => hccAppendString_eq) (hs _)
    · exact padded_eq (fun _ => hccAppendSigned_eq) hccSignedLen_eq
    · exact padded_eq (fun _ => hccAppendUnsigned_eq (by decide) (by decide)) (hccUnsignedLen_eq (by decide))
    · exact padded_eq (fun _ => hccAppendUnsigned_eq (by decide) (by decide)) (hccUnsignedLen_eq (by decide))
    · exact padded_eq (fun _ => rfl) (show 1 = int 1 by decide)
    · rfl
    · rfl

theorem loop_eq {fmt : List UInt8} :
    hccVformat.loop strings stop a b c arg o fmt = put stop o (expansion strings a b c arg fmt) := by
  fun_induction hccVformat.loop strings stop a b c arg o fmt
  case case1 => rw [expansion, put_nil]
  case case2 arg o ch fmt h hi => rw [hi, expansion, if_pos h, put_cons]
  case case3 arg o ch fmt h d o' arg' hi =>
    simp only [dite_eq_ite] at hi
    have hn : (if d.1.conversion = some '%'.toUInt8 then int (arg' - 1) else arg') =
        int (if d.1.conversion = some '%'.toUInt8 then arg else arg + 1) := by
      split
      case isTrue  => rw [Int.sub_eq_add_neg, int_int_add, Int.add_neg_cancel_right]
      case isFalse => rfl
    rw [hi, hn, expansion, if_neg h, put_append, ←convert_eq]

theorem put_total (ht : int o.total = o.total) : (put stop o cs).total = int (o.total + cs.length) := by
  induction cs generalizing o
  case nil => simp [ht]
  case cons c cs hi =>
    rw [put_cons, hi (by simpa [hccAppendChar] using int_int_add (y := 0))]
    simp only [hccAppendChar, int_int_add, List.length_cons]
    congr 1
    omega

theorem put_p (cs : List UInt8) (hp : o.p ≤ stop) : (put stop o cs).p = min (o.p + cs.length) stop := by
  induction cs generalizing o
  case nil => simp [hp]
  case cons c cs hi =>
    have hs : (hccAppendChar stop o c).p = min (o.p + 1) stop := by
      simp only [hccAppendChar]
      split <;> omega
    rw [put_cons, hi (by omega), hs, List.length_cons]
    omega

theorem put_memory_of_lt (cs : List UInt8) {n : Nat} (hn : n < o.p ∨ stop ≤ n) :
    (put stop o cs).memory n = o.memory n := by
  induction cs generalizing o
  case nil => rfl
  case cons c cs hi =>
    rw [put_cons, hi]
    all_goals
      simp only [hccAppendChar]
      split
    · exact Function.update_of_ne (by omega) ..
    · rfl
    · omega
    · exact hn

theorem put_memory (cs : List UInt8) {i : Nat} (hi : i < cs.length) (hs : o.p + i < stop) :
    (put stop o cs).memory (o.p + i) = cs[i] := by
  induction cs generalizing o i
  case nil => nomatch hi
  case cons c cs hr =>
    have ho : o.p < stop := by omega
    cases i
    case zero =>
      rw [put_cons, put_memory_of_lt cs (by simp [hccAppendChar, ho])]
      simp [hccAppendChar, ho]
    case succ i =>
      have hp : (hccAppendChar stop o c).p = o.p + 1 := by simp [hccAppendChar, ho]
      have := hr (o := hccAppendChar stop o c) (i := i) (by simpa using hi) (by omega)
      rw [hp] at this
      rw [put_cons, List.getElem_cons_succ, ←this]
      congr 1
      omega

end Vformat

-- What is appended by a helper, and the length that is computed for it.
def Appends (append : Nat → Output → Output) (length : Int) : Prop :=
  ∃ cs : List UInt8, (∀ stop o, append stop o = cs.foldl (hccAppendChar stop) o) ∧ length = int cs.length

theorem appends_stringLimit (cs : List UInt8) (limit : Int) {n : Int} (hn : int n = n) :
    ∃ cs' : List UInt8, (∀ stop o, hccAppendStringLimit stop o limit n cs = put stop o cs') ∧
      hccStringNLen limit n cs = int (n + cs'.length) := by
  induction cs generalizing n
  case nil => exact ⟨[], fun _ _ => rfl, by simp [hccStringNLen, hn]⟩
  case cons c cs hi =>
    by_cases hl : limit < 0 ∨ n < limit
    case neg => exact ⟨[], fun _ _ => if_neg hl, by simp [hccStringNLen, hl, hn]⟩
    case pos =>
      have ⟨cs', ha, hc⟩ := hi (n := int (n + 1)) (by simpa using int_int_add (y := 0))
      refine ⟨c :: cs', fun stop o => (if_pos hl).trans <| ha .., ?_⟩
      rw [hccStringNLen, if_pos hl, hc, int_int_add, List.length_cons]
      congr 1
      omega

theorem result_total (strings : BitVec w → List UInt8) (memory : Nat → UInt8) (size : Nat)
    (fmt : List UInt8) (a b c : BitVec w) :
    (hccVformat strings memory size fmt a b c).1 = int (expansion strings a b c 0 fmt).length := by
  simp only [hccVformat, loop_eq]
  rw [put_total (by rfl), Int.zero_add]

theorem result_memory (strings : BitVec w → List UInt8) (memory : Nat → UInt8) {size : Nat}
    (fmt : List UInt8) (a b c : BitVec w) (hs : 0 < size) :
    let e := expansion strings a b c 0 fmt
    let result := hccVformat strings memory size fmt a b c
    result.2 (min e.length (size - 1)) = 0 ∧
      (List.range (min e.length (size - 1))).map result.2 = e.take (size - 1) := by
  intro e result
  have hp : (put (size - 1) ⟨0, 0, memory⟩ e).p = min e.length (size - 1) := by
    simpa using put_p (o := ⟨0, 0, memory⟩) e (Nat.zero_le (size - 1))
  have hm : result.2 =
      Function.update (put (size - 1) ⟨0, 0, memory⟩ e).memory (min e.length (size - 1)) 0 := by
    simp only [result, hccVformat, loop_eq, if_pos hs.ne', e, ←hp]
  rw [hm]
  refine ⟨Function.update_self .., List.ext_getElem (by simp [Nat.min_comm]) fun i hi he => ?_⟩
  simp only [List.length_map, List.length_range] at hi
  rw [List.getElem_map, List.getElem_range, Function.update_of_ne (by omega), List.getElem_take]
  simpa using put_memory (o := ⟨0, 0, memory⟩) (i := i) e (by omega) (by simp; omega)

theorem result_outside (strings : BitVec w → List UInt8) (memory : Nat → UInt8) {size : Nat}
    (fmt : List UInt8) (a b c : BitVec w) {n : Nat} (hn : size ≤ n) :
    (hccVformat strings memory size fmt a b c).2 n = memory n := by
  have hp := put_p (o := ⟨0, 0, memory⟩) (expansion strings a b c 0 fmt) (Nat.zero_le (size - 1))
  have hm := put_memory_of_lt (o := ⟨0, 0, memory⟩) (expansion strings a b c 0 fmt)
    (.inr <| (Nat.sub_le size 1).trans hn)
  simp only [hccVformat, loop_eq]
  split
  case isTrue hs  => rw [Function.update_of_ne (by omega), hm]
  case isFalse hs => exact hm

-- The bytes `e` are written to a buffer as far as they fit, and all of them are counted.
structure Formatted (memory : Nat → UInt8) (size : Nat) (e : List UInt8) (result : Int × (Nat → UInt8)) : Prop where
  outside    : ∀ n ≥ size, result.2 n = memory n
  terminated : 0 < size → result.2 (min e.length (size - 1)) = 0
  written    : 0 < size → (List.range (min e.length (size - 1))).map result.2 = e.take (size - 1)
  total      : result.1 = int e.length
  length     : e.length < 2 ^ 31 → result.1 = e.length

theorem hccVformat_exact (strings : BitVec w → List UInt8) (memory : Nat → UInt8) (size : Nat)
    (fmt : List UInt8) (a b c : BitVec w) :
    Formatted memory size (expansion strings a b c 0 fmt) (hccVformat strings memory size fmt a b c) ∧
    (∀ text, Appends (hccAppendString · · text) (hccStringLen 0 text)) ∧
    (∀ text limit, Appends (hccAppendStringLimit · · limit 0 text) (hccStringNLen limit 0 text)) ∧
    (∀ value base, base = 10 ∨ base = 16 →
      Appends (hccAppendUnsigned · · value base) (hccUnsignedLen value base)) ∧
    ∀ value : BitVec w, Appends (hccAppendSigned · · value) (hccSignedLen value) := by
  refine ⟨⟨?_, ?_, ?_, ?_, ?_⟩, fun text => ?_, fun text limit => ?_, fun value base hb => ?_, fun value => ?_⟩
  · exact fun n => result_outside strings memory fmt a b c
  · exact fun hs => (result_memory strings memory fmt a b c hs).1
  · exact fun hs => (result_memory strings memory fmt a b c hs).2
  · exact result_total strings memory size fmt a b c
  · intro hl
    refine (result_total strings memory size fmt a b c).trans ?_
    exact Int.bmod_eq_of_le (by omega) (by omega)
  · exact ⟨text, fun _ _ => hccAppendString_eq, by simpa using hccStringLen_eq (n := 0) rfl⟩
  · have ⟨cs, ha, hc⟩ := appends_stringLimit text limit (n := 0) rfl
    exact ⟨cs, ha, by simpa using hc⟩
  · exact ⟨_, fun _ _ => hccAppendUnsigned_eq (by omega) (by omega), hccUnsignedLen_eq (by omega)⟩
  · exact ⟨_, fun _ _ => hccAppendSigned_eq, hccSignedLen_eq⟩

theorem hccVformat_exact_truncated :
    let result := hccVformat (w := 64) (fun _ => []) (fun _ => 1) 4 (bytes ['%', '5', 'd', '%']) 42 0 0
    result.2 3 = 0 ∧ result.1 = 7 ∧ ∀ n ≥ 4, result.2 n = 1 := by
  have he : expansion (w := 64) (fun _ => []) 42 0 0 0 (bytes ['%', '5', 'd', '%']) =
      bytes [' ', ' ', ' ', '4', '2', '%'] ++ [0] := by
    decide +kernel
  have h := hccVformat_exact (w := 64) (fun _ => []) (fun _ => 1) 4 (bytes ['%', '5', 'd', '%']) 42 0 0
  rw [he] at h
  exact ⟨h.1.terminated (by decide), h.1.length (by decide), h.1.outside⟩

end Hcc.Support
