import Hcc.Ast.Basic
import Hcc.Lexer.Theorems.Spelling
import Hcc.Literal.Theorems.Constant

open Digits

namespace Hcc

variable {base v : Int} {digits suffix text bytes mark clean : List Char} {word : List Int} {long : Nat}

-- The texts of integer literals, whatever the order of the letters of the suffix is.
inductive IntegerText : (base : Int) → (digits suffix text : List Char) → Prop
  | decimal {d ds suffix} : d ≠ '0' → (∀ c ∈ d :: ds, isDigitChar c) → (∀ c ∈ suffix, isIntSuffix c) →
    IntegerText 10 (d :: ds) suffix (d :: ds ++ suffix)
  | octal {ds suffix} : (∀ c ∈ ds, isOctalDigit c) → (∀ c ∈ suffix, isIntSuffix c) →
    IntegerText 8 ds suffix ('0' :: ds ++ suffix)
  | hexadecimal {m d ds suffix} : m = 'x' ∨ m = 'X' → (∀ c ∈ d :: ds, isHexDigit c) →
    (∀ c ∈ suffix, isIntSuffix c) → IntegerText 16 (d :: ds) suffix ('0' :: m :: d :: ds ++ suffix)

-- The number that the digits denote, if `v` is what the digits before them denote.
def digitsValue (base v : Int) (digits : List Char) : Int :=
  digits.foldl (fun v c => v * base + digitValue c) v

@[simp]
theorem digitsValue_nil : digitsValue base v [] = v := rfl

@[simp]
theorem digitsValue_cons : digitsValue base v (c :: digits) = digitsValue base (v * base + digitValue c) digits :=
  rfl

section Characters

theorem isHexDigit_of_digit (h : isDigitChar c) : isHexDigit c := by
  simp only [isDigitChar, isHexDigit, isDecimalDigit, Bool.and_eq_true, Bool.or_eq_true, ge_iff_le] at *
  exact .inl <| .inl h

theorem isDigitChar_of_octal (h : isOctalDigit c) : isDigitChar c := by
  have h : '0' ≤ c ∧ c ≤ '7' := by simpa [isOctalDigit] using h
  have h₁ : c ≤ '9' := Char.le_trans h.right (by decide)
  simp [isDigitChar, h.left, h₁]

theorem isDecimalDigit_iff : isDecimalDigit c ↔ isDigitChar c := by
  simp [isDecimalDigit, isDigitChar]

theorem digitValue_decimal (h : isDigitChar c) : digitValue c = decimalDigit c := by
  rw [digitValue, if_pos (isDecimalDigit_iff.mpr h)]

theorem digitValue_digit (h : isDigitChar c) : 0 ≤ digitValue c ∧ digitValue c < 10 := by
  rw [digitValue_decimal h, decimalDigit]
  have h : '0' ≤ c ∧ c ≤ '9' := by simpa [isDigitChar] using h
  have h₁ : 48 ≤ c.toNat := h.left
  have h₂ : c.toNat ≤ 57 := h.right
  have hz : '0'.toNat = 48 := rfl
  omega

theorem digitValue_octal (h : isOctalDigit c) : 0 ≤ digitValue c ∧ digitValue c < 8 := by
  rw [digitValue_decimal <| isDigitChar_of_octal h, decimalDigit]
  have h : '0' ≤ c ∧ c ≤ '7' := by simpa [isOctalDigit] using h
  have h₁ : 48 ≤ c.toNat := h.left
  have h₂ : c.toNat ≤ 55 := h.right
  have hz : '0'.toNat = 48 := rfl
  omega

theorem digitValue_hex (h : isHexDigit c) : 0 ≤ digitValue c ∧ digitValue c < 16 := by
  by_cases hd : isDigitChar c
  case pos => have := digitValue_digit hd; omega
  case neg =>
    have hd : ¬isDecimalDigit c := fun h => hd <| isDecimalDigit_iff.mp h
    have ha : 'a'.toNat = 97 := rfl
    have hA : 'A'.toNat = 65 := rfl
    simp only [isHexDigit, hd, Bool.false_or, Bool.or_eq_true, Bool.and_eq_true, decide_eq_true_eq] at h
    simp only [digitValue, hd, Bool.and_eq_true, decide_eq_true_eq]
    by_cases hl : 'a' ≤ c ∧ c ≤ 'f'
    case pos =>
      have h₁ : 97 ≤ c.toNat := hl.left
      have h₂ : c.toNat ≤ 102 := hl.right
      simp only [hl, and_self, if_true, if_false, Bool.false_eq_true]
      omega
    case neg =>
      have hu : 'A' ≤ c ∧ c ≤ 'F' := h.resolve_left <| by simpa using hl
      have h₁ : 65 ≤ c.toNat := hu.left
      have h₂ : c.toNat ≤ 70 := hu.right
      simp only [hl, hu, and_self, if_true, if_false, Bool.false_eq_true]
      omega

theorem not_suffix_of_hex (h : isHexDigit c) : isIntSuffix c = false := by
  have hn : ∀ c ∈ ['u', 'U', 'l', 'L'], isHexDigit c = false := by simp; decide
  by_contra hs
  have hm : c ∈ ['u', 'U', 'l', 'L'] := of_decide_eq_true <| eq_true_of_ne_false hs
  exact nomatch (hn c hm).symm.trans h

end Characters

section Reading

theorem IntegerText.base_bounds (h : IntegerText base digits suffix text) : 8 ≤ base ∧ base ≤ 16 := by
  cases h <;> decide

theorem IntegerText.digit (h : IntegerText base digits suffix text) (hc : c ∈ digits) :
    0 ≤ digitValue c ∧ digitValue c < base := by
  cases h
  case decimal _ hd _        => exact digitValue_digit <| hd c hc
  case octal hd _            => exact digitValue_octal <| hd c hc
  case hexadecimal _ _ hd _  => exact digitValue_hex <| hd c hc

theorem IntegerText.suffix_chars (h : IntegerText base digits suffix text) : ∀ c ∈ suffix, isIntSuffix c := by
  cases h <;> assumption

theorem le_digitsValue (hb : 8 ≤ base) (hd : ∀ c ∈ digits, 0 ≤ digitValue c) (hv : 0 ≤ v) :
    v ≤ digitsValue base v digits := by
  induction digits generalizing v
  case nil => rfl
  case cons c cs hi =>
    have hc := hd c <| .head _
    have hm : v * 8 ≤ v * base := mul_le_mul_of_nonneg_left hb hv
    have hn := hi (fun c hc => hd c <| .tail _ hc) (v := v * base + digitValue c) (by omega)
    rw [digitsValue_cons]
    omega

-- The reader accumulates the value of the digits modulo the size of its word.
theorem readBaseBytesFrom_spec (hd : ∀ c ∈ digits, digitValue c < base) (hp : Proper 256 word)
    (hl : word.length = 8) (hv : value 256 word = v % 256 ^ 8) :
    Proper 256 (readBaseBytesFrom base word digits) ∧ (readBaseBytesFrom base word digits).length = 8 ∧
      value 256 (readBaseBytesFrom base word digits) = digitsValue base v digits % 256 ^ 8 := by
  induction digits generalizing word v
  case nil => exact ⟨hp, hl, hv⟩
  case cons c cs hi =>
    have hl' : (byteWordAddSmallCarry (digitValue c) (byteWordMulSmall base word)).length = 8 := by simp [hl]
    have hm : byteWordMulAdd base (digitValue c) word =
        byteWordAddSmallCarry (digitValue c) (byteWordMulSmall base word) :=
      List.take_of_length_le hl'.le
    rw [readBaseBytesFrom, if_pos <| hd c <| .head _, digitsValue_cons, hm]
    refine hi (fun c hc => hd c <| .tail _ hc) proper_byteWordAddSmallCarry hl' ?_
    rw [value_byteWordAddSmallCarry, value_byteWordMulSmall, length_byteWordMulSmall, hl, hv, Int.emod_add_emod,
      mul_comm base]
    exact ((Int.mod_modEq ..).mul_right _).add_right _

theorem getLast_zero_iff (hp : Proper 256 word) (hl : word.length = n + 1) :
    word.getLast? = some 0 ↔ value 256 word < 256 ^ n := by
  rcases List.eq_nil_or_concat word with rfl | ⟨low, high, rfl⟩
  case inl => contradiction
  case inr =>
    simp only [List.concat_eq_append, List.length_append, List.length_singleton, Nat.add_right_cancel_iff] at *
    have hlow : Proper 256 low := fun d hd => hp d <| List.mem_append_left _ hd
    have ⟨h₀, hlt⟩ := value_bounds hlow
    have hh := (hp high <| List.mem_append_right _ <| .head _).left
    rw [hl] at hlt
    simp only [List.getLast?_append, List.getLast?_singleton, Option.some_or, Option.some_inj, value_append,
      value_cons, value_nil, hl, mul_zero, add_zero]
    constructor
    case mp  => rintro rfl; simpa using hlt
    case mpr =>
      intro h
      by_contra hc
      have hm : (256 : Int) ^ n * 1 ≤ 256 ^ n * high := mul_le_mul_of_nonneg_left (by omega) (by positivity)
      omega

-- The last of the nine bytes of the scan is set as soon as the value has left the first eight bytes.
theorem fits_iff (hb : 8 ≤ base ∧ base ≤ 16) (hd : ∀ c ∈ digits, 0 ≤ digitValue c ∧ digitValue c < base)
    (hp : Proper 256 word) (hl : word.length = 9) (hv : value 256 word < 256 ^ 8) :
    constantLiteralRankedChecked.fits base word digits ↔ digitsValue base (value 256 word) digits < 256 ^ 8 := by
  induction digits generalizing word
  case nil => simpa [constantLiteralRankedChecked.fits] using hv
  case cons c cs hi =>
    have ⟨h₀, hc⟩ := hd c <| .head _
    have hd' c (h : c ∈ cs) := hd c <| .tail _ h
    have hv₀ := hp.value_nonneg
    have hm : value 256 word * base ≤ value 256 word * 16 := mul_le_mul_of_nonneg_left hb.right hv₀
    have hm₀ : 0 ≤ value 256 word * base := mul_nonneg hv₀ (by omega)
    set next := byteWordAddSmallCarry (digitValue c) (byteWordMulSmall base word) with hnext
    have hpn : Proper 256 next := proper_byteWordAddSmallCarry
    have hln : next.length = 9 := by simp [hnext, hl]
    have hn : value 256 next = value 256 word * base + digitValue c := by
      rw [hnext, value_byteWordAddSmallCarry, value_byteWordMulSmall, length_byteWordMulSmall, hl, Int.emod_add_emod,
        mul_comm base]
      exact Int.emod_eq_of_lt (by omega) (by omega)
    rw [constantLiteralRankedChecked.fits, if_neg (by omega), digitsValue_cons, ←hn]
    simp only [←hnext, Bool.and_eq_true, decide_eq_true_eq, getLast_zero_iff hpn hln]
    constructor
    case mp  => exact fun ⟨h, hf⟩ => (hi hd' hpn hln h).mp hf
    case mpr =>
      intro h
      have hle := le_digitsValue hb.left (fun c hc => (hd' c hc).left) hpn.value_nonneg
      have hlt := hle.trans_lt h
      exact ⟨hlt, (hi hd' hpn hln hlt).mpr h⟩

theorem stripIntSuffix_append (hc : ∀ c ∈ clean, isIntSuffix c = false) (hs : ∀ c ∈ suffix, isIntSuffix c) :
    stripIntSuffix (clean ++ suffix) = clean := by
  have hd : clean.reverse.dropWhile isIntSuffix = clean.reverse := by
    rcases h : clean.reverse with _ | ⟨c, cs⟩
    · rfl
    · have hm : c ∈ clean := List.mem_reverse.mp <| h ▸ .head _
      rw [List.dropWhile_cons_of_neg]
      simp [hc c hm]
  rw [stripIntSuffix, List.reverse_append, List.dropWhile_append_of_pos (by simpa using hs), hd, List.reverse_reverse]

theorem not_suffix_of_octal (h : isOctalDigit c) : isIntSuffix c = false :=
  not_suffix_of_hex <| isHexDigit_of_digit <| isDigitChar_of_octal h

theorem not_suffix_of_mark (hm : m = 'x' ∨ m = 'X') : isIntSuffix m = false := by
  rcases hm with rfl | rfl <;> rfl

-- The mark of a hexadecimal literal is no octal digit.
theorem octal_ne_mark (h : isOctalDigit c) : c ≠ 'x' ∧ c ≠ 'X' :=
  ⟨fun he => absurd h (by rw [he]; decide), fun he => absurd h (by rw [he]; decide)⟩

theorem IntegerText.split (h : IntegerText base digits suffix text) :
    stripIntSuffix text = digits ∧ base = 10 ∧ digits.head? ≠ some '0' ∨
    stripIntSuffix text = '0' :: digits ∧ base = 8 ∧ digits.head? ≠ some 'x' ∧ digits.head? ≠ some 'X' ∨
    (∃ m, stripIntSuffix text = '0' :: m :: digits ∧ (m = 'x' ∨ m = 'X')) ∧ base = 16 := by
  cases h
  case decimal hz hd hs =>
    have hc := stripIntSuffix_append (fun c hc => not_suffix_of_hex <| isHexDigit_of_digit <| hd c hc) hs
    exact .inl ⟨hc, rfl, by simpa using hz⟩
  case octal hd hs =>
    have hc : stripIntSuffix ('0' :: digits ++ suffix) = '0' :: digits :=
      stripIntSuffix_append (List.forall_mem_cons.mpr ⟨rfl, fun c hc => not_suffix_of_octal <| hd c hc⟩) hs
    have hm c (h : digits.head? = some c) := octal_ne_mark <| hd c <| List.mem_of_head? h
    exact .inr <| .inl ⟨hc, rfl, fun h => (hm _ h).left rfl, fun h => (hm _ h).right rfl⟩
  case hexadecimal m d ds hm hd hs =>
    have hc : stripIntSuffix ('0' :: m :: (d :: ds) ++ suffix) = '0' :: m :: (d :: ds) := stripIntSuffix_append (List.forall_mem_cons.mpr ⟨rfl, List.forall_mem_cons.mpr
      ⟨not_suffix_of_mark hm, fun c hc => not_suffix_of_hex <| hd c hc⟩⟩) hs
    exact .inr <| .inr ⟨⟨_, hc, hm⟩, rfl⟩

theorem IntegerText.natural (h : IntegerText base digits suffix text) :
    naturalLiteralBytes (stripIntSuffix text) = readBaseBytes base digits := by
  rcases h.split with ⟨hc, rfl, hz⟩ | ⟨hc, rfl, hx, hX⟩ | ⟨⟨m, hc, hm⟩, rfl⟩ <;> rw [hc]
  · unfold naturalLiteralBytes
    split <;> simp_all
  · unfold naturalLiteralBytes
    split <;> simp_all
  · rcases hm with rfl | rfl <;> rfl

theorem IntegerText.checked (h : IntegerText base digits suffix text) :
    constantLiteralRankedChecked long false text =
      if constantLiteralRankedChecked.fits base (List.replicate 9 0) digits then
        .ok (constantLiteralRanked long false text)
      else .error "integer literal exceeds supported 64-bit range" := by
  unfold constantLiteralRankedChecked
  rcases h.split with ⟨hc, rfl, hz⟩ | ⟨hc, rfl, hx, hX⟩ | ⟨⟨m, hc, hm⟩, rfl⟩ <;> simp only [hc]
  · split <;> simp_all
  · split <;> simp_all
  · rcases hm with rfl | rfl <;> rfl

end Reading

section Candidates

open CInteger

variable {x : Int} {types : List CType}

def literalRank : CType → Int
  | .int  | .unsigned     => 1
  | .long | .unsignedLong => 2
  | _                     => 3

def literalType (long : Nat) : CType → IntType
  | .int          => ⟨4, false⟩
  | .unsigned     => ⟨4, true⟩
  | .long         => ⟨long, false⟩
  | .unsignedLong => ⟨long, true⟩
  | .longLong     => ⟨8, false⟩
  | _             => ⟨8, true⟩

-- The candidate types of a literal by its base and its suffix.
def candidateTypes (decimal unsigned : Bool) (longs : Nat) : List CType :=
  match longs, unsigned, decimal with
  | 0, false, true  => [.int, .long, .longLong]
  | 0, false, false => [.int, .unsigned, .long, .unsignedLong, .longLong, .unsignedLongLong]
  | 0, true,  _     => [.unsigned, .unsignedLong, .unsignedLongLong]
  | 1, false, true  => [.long, .longLong]
  | 1, false, false => [.long, .unsignedLong, .longLong, .unsignedLongLong]
  | 1, true,  _     => [.unsignedLong, .unsignedLongLong]
  | _, false, true  => [.longLong]
  | _, false, false => [.longLong, .unsignedLongLong]
  | _, true,  _     => [.unsignedLongLong]

-- The first of the types that can represent the value.
def firstType (long : Nat) (x : Int) (types : List CType) : CType :=
  (types.find? fun type => (literalType long type).wrap x = x).getD .unsignedLongLong

def typedLiteral (long : Nat) (x : Int) (type : CType) : Int × Constant :=
  let t := literalType long type
  (literalRank type, ⟨t.size, t.unsigned, intBytes t.size x⟩)

def integerLimit (t : IntType) : List Int :=
  List.replicate (t.size - 1) 255 ++ [if t.unsigned then 255 else 127] ++ List.replicate (8 - t.size) 0

theorem literalType_size (hl : long = 4 ∨ long = 8) :
    (literalType long type).size = 4 ∨ (literalType long type).size = 8 := by
  cases type <;> simp [literalType, hl]

theorem compare_integerLimit {t : IntType} (ht : t.size = 4 ∨ t.size = 8) (hp : Proper 256 word)
    (hl : word.length = 8) : constWordCompare word (integerLimit t) ≤ 0 ↔ t.wrap (value 256 word) = value 256 word := by
  have h₀ := hp.value_nonneg
  have hlim : Proper 256 (integerLimit t) ∧ (integerLimit t).length = 8 := by
    rcases t with ⟨size, unsigned⟩
    rcases ht with rfl | rfl <;> cases unsigned <;> simp [integerLimit, List.replicate]
  have hw : t.wrap (value 256 word) = value 256 word ↔ value 256 word ≤ value 256 (integerLimit t) := by
    rw [IntType.wrap_eq_self_iff]
    rcases t with ⟨size, unsigned⟩
    rcases ht with rfl | rfl <;> cases unsigned <;>
      simp [integerLimit, List.replicate, IntType.modulus, h₀] <;> omega
  rw [constWordCompare_eq hp hlim.left (hl.trans hlim.right.symm), hw]
  split_ifs <;> omega

theorem take_eq_intBytes (hp : Proper 256 word) (hl : word.length = 8) (hn : n ≤ 8) :
    word.take n = intBytes n (value 256 word) :=
  hp.take.eq_of_value_eq (by decide) proper_intBytes (by simp [hl, hn]) <| by
    rw [value_take hp (hl ▸ hn), value_intBytes]

variable (types) in
theorem choose_eq (hl : long = 4 ∨ long = 8) (hp : Proper 256 word) (hw : word.length = 8) :
    constantLiteralRanked.choose word
        (types.map fun type => (literalRank type, (literalType long type).size, (literalType long type).unsigned)) =
      typedLiteral long (value 256 word) (firstType long (value 256 word) types) := by
  induction types
  case nil =>
    have h := take_eq_intBytes hp hw le_rfl
    rw [List.take_of_length_le hw.le] at h
    simp [constantLiteralRanked.choose, firstType, typedLiteral, literalRank, literalType, ←h]
  case cons type types hi =>
    have ht : (literalType long type).size = 4 ∨ (literalType long type).size = 8 := literalType_size hl
    have hc := compare_integerLimit ht hp hw
    simp only [integerLimit] at hc
    simp only [List.map_cons, constantLiteralRanked.choose, hc]
    by_cases h : (literalType long type).wrap (value 256 word) = value 256 word
    case pos => simp [h, firstType, typedLiteral, take_eq_intBytes hp hw (by omega : (literalType long type).size ≤ 8)]
    case neg => simp only [h, if_false, hi]; simp [firstType, h]

-- The letters of the suffix are the only ones in the text that select a type.
theorem IntegerText.letters (h : IntegerText base digits suffix text) :
    intLiteralIsUnsigned text = intLiteralIsUnsigned suffix ∧
      text.filter (· ∈ ['l', 'L']) = suffix.filter (· ∈ ['l', 'L']) := by
  have ⟨clean, ht, hc⟩ : ∃ clean, text = clean ++ suffix ∧ ∀ c ∈ clean, isIntSuffix c = false := by
    cases h
    case decimal d ds _ hd _ => exact ⟨_, rfl, fun c hc => not_suffix_of_hex <| isHexDigit_of_digit <| hd c hc⟩
    case octal hd _          => exact ⟨_, rfl, List.forall_mem_cons.mpr ⟨rfl, fun c hc => not_suffix_of_octal <| hd c hc⟩⟩
    case hexadecimal hm hd _ => exact ⟨_, rfl, List.forall_mem_cons.mpr ⟨rfl, List.forall_mem_cons.mpr
      ⟨not_suffix_of_mark hm, fun c hc => not_suffix_of_hex <| hd c hc⟩⟩⟩
  have hn c (h : c ∈ clean) : c ∉ ['u', 'U'] ∧ c ∉ ['l', 'L'] := by
    have := hc c h
    simp only [isIntSuffix, decide_eq_false_iff_not, List.mem_cons, List.not_mem_nil, or_false, not_or] at this
    simp [this]
  have hu : clean.any (· ∈ ['u', 'U']) = false := by
    rw [List.any_eq_false]
    exact fun c hc => by simpa using (hn c hc).left
  have hl : clean.filter (· ∈ ['l', 'L']) = [] := by
    rw [List.filter_eq_nil_iff]
    exact fun c hc => by simpa using (hn c hc).right
  rw [ht, intLiteralIsUnsigned, List.any_append, hu, List.filter_append, hl]
  exact ⟨rfl, rfl⟩

def suffixTypes (base : Int) (suffix : List Char) : List CType :=
  candidateTypes (base = 10) (intLiteralIsUnsigned suffix) (suffix.filter (· ∈ ['l', 'L'])).length

def isNonDecimal : List Char → Bool
  | '0' :: _ :: _ => true
  | _             => false

theorem IntegerText.zero (h : IntegerText base digits suffix text) (ht : text = ['0']) :
    base = 8 ∧ digits = [] ∧ suffix = [] := by
  cases h <;> simp_all

theorem IntegerText.nonDecimal (h : IntegerText base digits suffix text) (ht : text ≠ ['0']) :
    isNonDecimal text = !decide (base = 10) := by
  cases h
  case decimal hz _ _ => simp [isNonDecimal, hz]
  case octal hd _ =>
    cases hl : digits ++ suffix
    case nil  => simp_all
    case cons => simp [isNonDecimal, hl]
  case hexadecimal => rfl

def rankedCandidates (long : Nat) (unsigned nonDecimal : Bool) (longs : Nat) : List (Int × Nat × Bool) :=
  let sizes : List (Int × Nat) :=
    if longs ≥ 2 then [(3, 8)]
    else if longs = 1 then [(2, long), (3, 8)]
    else [(1, 4), (2, long), (3, 8)]
  sizes.flatMap fun (rank, size) =>
    if unsigned then [(rank, size, true)]
    else if nonDecimal then [(rank, size, false), (rank, size, true)]
    else [(rank, size, false)]

theorem constantLiteralRanked_eq :
    constantLiteralRanked long false text = constantLiteralRanked.choose (naturalLiteralBytes (stripIntSuffix text))
      (rankedCandidates long (intLiteralIsUnsigned text) (isNonDecimal text) (text.filter (· ∈ ['l', 'L'])).length) :=
  rfl

theorem rankedCandidates_eq (decimal unsigned longs) :
    rankedCandidates long unsigned (!decimal) longs = (candidateTypes decimal unsigned longs).map fun type =>
      (literalRank type, (literalType long type).size, (literalType long type).unsigned) := by
  match longs with
  | 0     => cases decimal <;> cases unsigned <;> rfl
  | 1     => cases decimal <;> cases unsigned <;> rfl
  | n + 2 => cases decimal <;> cases unsigned <;> simp [rankedCandidates, candidateTypes, literalRank, literalType]

theorem IntegerText.nonneg (h : IntegerText base digits suffix text) : 0 ≤ digitsValue base 0 digits :=
  le_digitsValue h.base_bounds.left (fun _ hc => (h.digit hc).left) le_rfl

theorem IntegerText.readBytes (h : IntegerText base digits suffix text) (hx : digitsValue base 0 digits < 256 ^ 8) :
    Proper 256 (readBaseBytes base digits) ∧ (readBaseBytes base digits).length = 8 ∧
      value 256 (readBaseBytes base digits) = digitsValue base 0 digits := by
  have hz : Proper 256 zeroByteWord := by simp [zeroByteWord]
  have ⟨hp, hw, hv⟩ := readBaseBytesFrom_spec (v := 0) (fun c hc => (h.digit hc).right) hz rfl rfl
  exact ⟨hp, hw, hv.trans <| Int.emod_eq_of_lt h.nonneg hx⟩

-- The constant of a literal has the first candidate type that can represent the value.
theorem IntegerText.ranked (h : IntegerText base digits suffix text) (hl : long = 4 ∨ long = 8)
    (hx : digitsValue base 0 digits < 256 ^ 8) :
    constantLiteralRanked long false text =
      typedLiteral long (digitsValue base 0 digits) (firstType long (digitsValue base 0 digits) (suffixTypes base suffix)) := by
  have ⟨hp, hw, hv⟩ := h.readBytes hx
  have hc := choose_eq (suffixTypes base suffix) hl hp hw
  rw [constantLiteralRanked_eq, h.natural, h.letters.left, h.letters.right]
  by_cases ht : text = ['0']
  case pos =>
    have ⟨h₁, h₂, h₃⟩ := h.zero ht
    subst h₁ h₂ h₃ ht
    rcases hl with rfl | rfl <;> rfl
  case neg => rw [h.nonDecimal ht, rankedCandidates_eq, ←hv]; exact hc

theorem IntegerText.rankedChecked (h : IntegerText base digits suffix text) (hl : long = 4 ∨ long = 8) :
    constantLiteralRankedChecked long false text =
      if digitsValue base 0 digits < 256 ^ 8 then
        .ok (typedLiteral long (digitsValue base 0 digits)
          (firstType long (digitsValue base 0 digits) (suffixTypes base suffix)))
      else .error "integer literal exceeds supported 64-bit range" := by
  have hf : constantLiteralRankedChecked.fits base (List.replicate 9 0) digits ↔
      digitsValue base (value 256 (List.replicate 9 0)) digits < 256 ^ 8 :=
    fits_iff h.base_bounds (fun c hc => h.digit hc) (by simp [Proper]) rfl (by decide)
  have hz : value 256 (List.replicate 9 0) = 0 := rfl
  rw [h.checked]
  by_cases hx : digitsValue base 0 digits < 256 ^ 8
  case pos => rw [if_pos (hf.mpr <| hz ▸ hx), if_pos hx, h.ranked hl hx]
  case neg => rw [if_neg (fun h => hx <| hz ▸ hf.mp h), if_neg hx]

theorem firstType_wrap (h₀ : 0 ≤ x) (hx : x < 256 ^ 8) :
    (literalType long (firstType long x types)).wrap x = x := by
  unfold firstType
  cases hf : types.find? fun type => (literalType long type).wrap x = x
  case some => simpa using List.find?_some hf
  case none => exact Int.emod_eq_of_lt h₀ hx

theorem typedLiteral_represents (h₀ : 0 ≤ x) (hx : x < 256 ^ 8) :
    let type := firstType long x types
    (typedLiteral long x type).2.Represents (literalType long type) x ∧ (typedLiteral long x type).2.value = x := by
  have h := Constant.represents_of_word (t := literalType long (firstType long x types)) (x := x) length_intBytes
    proper_intBytes (by rw [value_intBytes]; exact Int.mod_modEq ..)
  exact ⟨h, h.value.trans <| firstType_wrap h₀ hx⟩

end Candidates

section Lexing

variable {st st' : LexState} {x : List Char}

theorem isIntSuffix_of_number (h : isNumberSuffix c) (hf : c ≠ 'f' ∧ c ≠ 'F') : isIntSuffix c := by
  simp only [isIntSuffix, isNumberSuffix, decide_eq_true_eq, List.mem_cons] at h ⊢
  tauto

theorem takeDecimalNumber_integer (h : takeDecimalNumber st = .ok (x, .int, st')) (hi : st.input = c :: cs)
    (hc : isDigitChar c) : ∃ base digits suffix, IntegerText base digits suffix x := by
  rcases hD : takeWhileColumns isDigitChar st with ⟨D, st₁⟩
  rcases hF : takeFraction st₁ with ⟨F, st₂⟩
  rcases hE : takeExponent ['e', 'E'] st₂ with ⟨E, st₃⟩
  rcases hS : takeWhileColumns isNumberSuffix st₃ with ⟨S, st₄⟩
  obtain ⟨hd, hs, hi'⟩ := takeWhileColumns_spec hD
  have hn := (takeWhileColumns_spec hS).left
  simp only [takeDecimalNumber, hD, hF, hE, hS] at h
  split at h <;> try contradiction
  case isFalse ho =>
    obtain ⟨rfl, hk⟩ := Prod.mk.inj <| Except.ok.inj h
    have hk := (Prod.mk.inj hk).left
    obtain ⟨⟨hF, hE⟩, hf⟩ : (F = [] ∧ E = []) ∧ hasFloatSuffix S = false := by simpa using hk
    subst hF hE
    have hS : ∀ c ∈ S, isIntSuffix c := by
      intro c hc
      have hf := List.any_eq_false.mp hf c hc
      exact isIntSuffix_of_number (hn c hc) <| by simpa using hf
    simp only [List.append_nil]
    cases D
    case nil =>
      rw [List.nil_append, hi] at hi'
      cases hc.symm.trans <| hs c (hi' ▸ rfl)
    case cons d ds =>
      by_cases hz : d = '0'
      case neg => exact ⟨_, _, _, .decimal hz hd hS⟩
      case pos =>
        subst hz
        refine ⟨_, _, _, .octal ?_ hS⟩
        cases ds
        case nil       => simp
        case cons c cs => simpa [hf, hasInvalidOctalDigit] using ho

theorem takeHexNumber_integer (hm : m = 'x' ∨ m = 'X') (h : takeHexNumber ['0', m] xs st = .ok (x, .int, st')) :
    ∃ base digits suffix, IntegerText base digits suffix x := by
  rcases hD : takeWhileColumns isHexDigit (advanceMany ['0', m] { st with input := xs }) with ⟨D, st₁⟩
  rcases hF : takeHexFraction st₁ with ⟨F, st₂⟩
  rcases hE : takeExponent ['p', 'P'] st₂ with ⟨E, st₃⟩
  rcases hS : takeWhileColumns (hexSuffix F E) st₃ with ⟨S, st₄⟩
  have hd := (takeWhileColumns_spec hD).left
  have hn := (takeWhileColumns_spec hS).left
  unfold hexSuffix at hS
  simp only [takeHexNumber, hD, hF, hE, hS] at h
  split at h <;> try contradiction
  case isFalse ho =>
    obtain ⟨rfl, hk⟩ := Prod.mk.inj <| Except.ok.inj h
    obtain ⟨hF, hE⟩ : F = [] ∧ E = [] := by simpa using (Prod.mk.inj hk).left
    subst hF hE
    cases D
    case nil  => simp at ho
    case cons => exact ⟨_, _, _, by simpa using IntegerText.hexadecimal hm hd hn⟩

-- The number tokens without a fraction and an exponent are the integer literals.
theorem Spelled.integer {s : String} (h : Spelled (.int s)) :
    ∃ base digits suffix, IntegerText base digits suffix s.toList := by
  have h : NumberText .int s.toList := h
  have ⟨c, hc, hd⟩ := h.head
  have ⟨cs, he⟩ : ∃ cs, s.toList = c :: cs := List.head?_eq_some_iff.mp hc
  have ⟨_, ht⟩ := h.takes ⟨1, 1⟩ false []
  unfold takeNumber at ht
  split at ht
  case h_1 => exact takeHexNumber_integer (.inl rfl) ht
  case h_2 => exact takeHexNumber_integer (.inr rfl) ht
  case h_3 => exact takeDecimalNumber_integer ht (by rw [he]; rfl) hd

end Lexing
end Hcc
