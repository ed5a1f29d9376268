import Hcc.Literal.Theorems.Integer
import Hcc.Lower.Expression

open Stateful Fueled Digits CInteger

namespace Hcc

variable {base v : Int} {digits suffix text : List Char} {scope : Scope} {st : ValueState}

section Operands

theorem hexDigit_eq (h : isHexDigit c) : hexDigit c = digitValue c := by
  unfold isHexDigit at h
  unfold hexDigit digitValue
  split_ifs at * <;> simp_all

theorem readHexFrom_eq (hd : ∀ c ∈ digits, isHexDigit c) : readHexFrom v digits = digitsValue 16 v digits := by
  induction digits generalizing v
  case nil          => rfl
  case cons c cs hi =>
    rw [readHexFrom, hexDigit_eq <| hd c <| .head _, hi fun c hc => hd c <| .tail _ hc, digitsValue_cons]

theorem readOctalFrom_eq (hd : ∀ c ∈ digits, isOctalDigit c) : readOctalFrom v digits = digitsValue 8 v digits := by
  induction digits generalizing v
  case nil          => rfl
  case cons c cs hi =>
    have hc := hd c <| .head _
    rw [readOctalFrom, if_pos hc, ←digitValue_decimal <| isDigitChar_of_octal hc, hi fun c hc => hd c <| .tail _ hc,
      digitsValue_cons]

theorem readDecimalPrefixFrom_eq (hd : ∀ c ∈ digits, isDigitChar c) :
    readDecimalPrefixFrom v digits = digitsValue 10 v digits := by
  induction digits generalizing v
  case nil          => rfl
  case cons c cs hi =>
    have hc := hd c <| .head _
    rw [readDecimalPrefixFrom, if_pos <| isDecimalDigit_iff.mpr hc, ←digitValue_decimal hc,
      hi fun c hc => hd c <| .tail _ hc, digitsValue_cons]

theorem IntegerText.parseInt (h : IntegerText base digits suffix text) : parseInt text = digitsValue base 0 digits := by
  have hs := h.split
  unfold Hcc.parseInt
  cases h
  case decimal hz hd _ =>
    rw [←readDecimalPrefixFrom_eq hd]
    rcases hs with ⟨hc, _⟩ | ⟨_, h, _⟩ | ⟨_, h⟩ <;> try contradiction
    simp only [hc]
    split <;> simp_all
  case octal hd _ =>
    rw [←readOctalFrom_eq hd]
    rcases hs with ⟨_, h, _⟩ | ⟨hc, _, hx, hX⟩ | ⟨_, h⟩ <;> try contradiction
    simp only [hc]
    split <;> simp_all
  case hexadecimal hd _ =>
    rw [←readHexFrom_eq hd]
    rcases hs with ⟨_, h, _⟩ | ⟨_, h, _⟩ | ⟨⟨m, hc, hm⟩, _⟩ <;> try contradiction
    rw [hc]
    rcases hm with rfl | rfl <;> rfl

theorem littleEndianValue_eq {word : List Int} (k : Nat) :
    littleEndianValue (8 * k) word = 256 ^ k * value 256 word := by
  induction word generalizing k
  case nil               => simp [littleEndianValue]
  case cons byte rest hi =>
    have hk := hi (k + 1)
    have hp : pow2 (8 * k) = 256 ^ k := by
      rw [pow2, show (8 * (k : Int)).toNat = 8 * k by omega, pow_mul]
      rfl
    rw [Nat.cast_add, Nat.cast_one, mul_add, mul_one] at hk
    rw [littleEndianValue, hk, hp, value_cons, pow_succ]
    ring

-- The run-time operand of a literal denotes its value, in both of its forms.
theorem IntegerText.operand (h : IntegerText base digits suffix text) (hx : digitsValue base 0 digits < 256 ^ 8) :
    immediateScalarValue (intConstOperand text) = some (digitsValue base 0 digits) := by
  have ⟨_, _, hv⟩ := h.readBytes hx
  have he := @littleEndianValue_eq (readBaseBytes base digits) 0
  simp only [intConstOperand, parseIntBytes, h.natural]
  split_ifs
  case pos => simpa [immediateScalarValue, hv] using he
  case neg => simp [immediateScalarValue, h.parseInt]

end Operands

section Types

def targetLongSize (st : ValueState) : Nat :=
  if st.targetBits = 32 then 4 else 8

theorem targetLongSize_cases (st : ValueState) : targetLongSize st = 4 ∨ targetLongSize st = 8 := by
  unfold targetLongSize
  split <;> simp

-- The type of a literal as an expression is the one that its rank and its signedness name.
theorem integerLiteralType_eq : integerLiteralType text scope st =
    match constantLiteralRankedChecked (targetLongSize st) false text with
    | .error msg        => done (.error msg)
    | .ok (rank, value) => done (.ok (
      if rank = 1 then (if value.unsigned then .unsigned else .int)
      else if rank = 2 then (if value.unsigned then .unsignedLong else .long)
      else (if value.unsigned then .unsignedLongLong else .longLong), st)) := by
  have hl : (if st.targetBits = 32 then 4 else 8) = (targetLongSize st : Int) := by
    unfold targetLongSize
    split <;> rfl
  have hw : targetWordSize scope st = done (.ok (if st.targetBits = 32 then 4 else 8, st)) := rfl
  have hb : integerLiteralType text scope st = (targetWordSize scope st >>= fun r =>
      (match constantLiteralRankedChecked r.1.toNat false text with
      | .error msg      => throw msg
      | .ok (rank, value) =>
        return if rank = 1 then (if value.unsigned then .unsigned else .int)
          else if rank = 2 then (if value.unsigned then .unsignedLong else .long)
          else (if value.unsigned then .unsignedLongLong else .longLong) : ValueM CType) scope r.2) := rfl
  rw [hb, hw, hl, done_ok_bind, Int.toNat_natCast]
  cases constantLiteralRankedChecked (targetLongSize st) false text <;> rfl

theorem firstType_standard {x : Int} {long : Nat} :
    firstType long x (suffixTypes base suffix) ∈
      [CType.int, .unsigned, .long, .unsignedLong, .longLong, .unsignedLongLong] := by
  unfold firstType
  cases hf : (suffixTypes base suffix).find? fun type => (literalType long type).wrap x = x
  case none => simp
  case some type =>
    have ht := List.mem_of_find?_eq_some hf
    unfold suffixTypes candidateTypes at ht
    split at ht <;> simp at ht ⊢ <;> tauto

variable (scope st) in
theorem IntegerText.type (h : IntegerText base digits suffix text) :
    integerLiteralType text scope st =
      if digitsValue base 0 digits < 256 ^ 8 then
        done (.ok (firstType (targetLongSize st) (digitsValue base 0 digits) (suffixTypes base suffix), st))
      else done (.error "integer literal exceeds supported 64-bit range") := by
  rw [integerLiteralType_eq, h.rankedChecked (targetLongSize_cases st)]
  split_ifs
  case neg => rfl
  case pos =>
    have ht := @firstType_standard base suffix (digitsValue base 0 digits) (targetLongSize st)
    revert ht
    generalize firstType (targetLongSize st) (digitsValue base 0 digits) (suffixTypes base suffix) = type
    intro ht
    simp only [List.mem_cons, List.not_mem_nil, or_false] at ht
    rcases ht with rfl | rfl | rfl | rfl | rfl | rfl <;> rfl

end Types

-- Every integer literal that is lexed has the value of its digits and the first of its candidate types that can
-- represent this value: as a constant, as an expression and as an operand.
theorem integerLiteral_exact {tok : Token} (h : lexC source = .ok toks) (ht : tok ∈ toks) (hk : tok.kind = .int s) :
    ∃ base digits suffix, IntegerText base digits suffix s.toList ∧ ∀ scope st,
      let x    := digitsValue base 0 digits
      let long := targetLongSize st
      let type := firstType long x (suffixTypes base suffix)
      if x < 2 ^ 64 then
        (∃ c, constantLiteralRankedChecked long false s.toList = .ok (literalRank type, c) ∧
          c.Represents (literalType long type) x ∧ c.value = x) ∧
        integerLiteralType s.toList scope st = done (.ok (type, st)) ∧
        immediateScalarValue (intConstOperand s.toList) = some x
      else
        constantLiteralRankedChecked long false s.toList = .error "integer literal exceeds supported 64-bit range" ∧
        integerLiteralType s.toList scope st = done (.error "integer literal exceeds supported 64-bit range") := by
  have ⟨base, digits, suffix, hs⟩ := (hk ▸ lexC_spelled h tok ht : Spelled (.int s)).integer
  refine ⟨base, digits, suffix, hs, fun scope st => ?_⟩
  have hp : (2 : Int) ^ 64 = 256 ^ 8 := rfl
  have hr := hs.rankedChecked <| targetLongSize_cases st
  have hi := hs.type scope st
  simp only [hp]
  split_ifs with hx
  case pos =>
    rw [if_pos hx] at hr hi
    exact ⟨⟨_, hr, typedLiteral_represents hs.nonneg hx⟩, hi, hs.operand hx⟩
  case neg =>
    rw [if_neg hx] at hr hi
    exact ⟨hr, hi⟩

theorem integerLiteral_exact_unsigned :
    ∃ base digits suffix, IntegerText base digits suffix "42u".toList ∧ ∀ scope, ∃ type,
      integerLiteralType "42u".toList scope {} = done (.ok (type, {})) := by
  have hl : lexC "42u" = .ok [⟨⟨⟨1, 1⟩, ⟨1, 4⟩⟩, .int "42u"⟩] := by rfl
  have ⟨base, digits, suffix, ht, h⟩ := integerLiteral_exact hl (.head _) rfl
  refine ⟨base, digits, suffix, ht, fun scope => ?_⟩
  have h := h scope {}
  dsimp only at h
  split_ifs at h with hx
  case pos => exact ⟨_, h.right.left⟩
  case neg => exact nomatch h.left

end Hcc
