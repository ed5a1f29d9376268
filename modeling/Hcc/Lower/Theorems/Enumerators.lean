import Hcc.Compile.Run
import Hcc.Lower.Theorems.Integer
import Hcc.Parser.Theorems.Enumerators
import Mathlib.Tactic.IntervalCases

open Stateful Digits CInteger Hcc.Parser

-- The expressions that stand for the constants of the parser.
namespace Hcc

variable {v c : Constant} {n x : Int} {m k long : Nat} {digits text : List Char} {bytes : List Int}
variable {scope : Scope} {st : ValueState} {live : Bool} {fuel : Nat}

section Digits

theorem isDigitChar_of_isDigit {c : Char} (h : c.isDigit) : isDigitChar c := by
  simpa [Char.isDigit, isDigitChar, Char.le_def] using h

theorem digitsValue_ten (hd : ∀ c ∈ digits, c.isDigit) :
    digitsValue 10 m digits = Nat.ofDigitChars 10 digits m := by
  induction digits generalizing m
  case nil          => rfl
  case cons c cs hi =>
    have hc := hd c <| .head _
    have h₀ : 48 ≤ c.toNat := by
      simp only [Char.isDigit, Bool.and_eq_true, decide_eq_true_eq] at hc
      exact hc.left
    have hv : (m : Int) * 10 + digitValue c = ((10 * m + (c.toNat - '0'.toNat) : Nat) : Int) := by
      have hz : '0'.toNat = 48 := rfl
      rw [digitValue_decimal <| isDigitChar_of_isDigit hc, decimalDigit, hz]
      omega
    rw [digitsValue_cons, hv, hi fun c hc => hd c <| .tail _ hc, Nat.ofDigitChars_cons]

-- A positive number does not start with a zero.
theorem head_toDigits (h : 0 < m) : (Nat.toDigits 10 m).head? ≠ some '0' := by
  induction m using Nat.strongRecOn
  case ind m hi =>
    by_cases hm : m < 10
    case pos =>
      rw [Nat.toDigits_of_lt_base hm]
      interval_cases m <;> decide
    case neg =>
      rw [Nat.toDigits_of_base_le (by decide) (by omega), List.head?_append_of_ne_nil _ Nat.toDigits_ne_nil]
      exact hi (m / 10) (by omega) (by omega)

-- The decimal digits of a number are an integer literal.
theorem integerText_toDigits (m : Nat) :
    ∃ base digits, IntegerText base digits [] (Nat.toDigits 10 m) ∧ digitsValue base 0 digits = m := by
  by_cases h : m = 0
  case pos =>
    subst h
    exact ⟨8, [], .octal nofun nofun, rfl⟩
  case neg =>
    have hd : ∀ c ∈ Nat.toDigits 10 m, c.isDigit := fun c hc =>
      Nat.isDigit_of_mem_toDigits (by decide) (by decide) hc
    have hh := head_toDigits (Nat.pos_of_ne_zero h)
    have hv := @digitsValue_ten 0 _ hd
    rw [Nat.ofDigitChars_ten_toDigits] at hv
    cases hl : Nat.toDigits 10 m
    case nil => exact absurd hl Nat.toDigits_ne_nil
    case cons d ds =>
      rw [hl] at hd hh hv
      refine ⟨10, d :: ds, ?_, hv⟩
      have ht := @IntegerText.decimal d ds [] (by simpa using hh) (fun c hc => isDigitChar_of_isDigit <| hd c hc)
        (by simp)
      rwa [List.append_nil] at ht

theorem hexChar (h : k < 16) :
    isHexDigit ("0123456789abcdef".toList.getD k '0') ∧ digitValue ("0123456789abcdef".toList.getD k '0') = k := by
  interval_cases k <;> exact ⟨rfl, rfl⟩

def hexByte (byte : Int) : List Char :=
  ["0123456789abcdef".toList.getD (byte / 16).toNat '0', "0123456789abcdef".toList.getD (byte % 16).toNat '0']

theorem hexByte_spec {b : Int} (h : 0 ≤ b ∧ b < 256) :
    (∀ c ∈ hexByte b, isHexDigit c) ∧ digitsValue 16 x (hexByte b) = x * 256 + b := by
  have ⟨hh, hhv⟩ := @hexChar (b / 16).toNat (by omega)
  have ⟨hl, hlv⟩ := @hexChar (b % 16).toNat (by omega)
  refine ⟨List.forall_mem_cons.mpr ⟨hh, List.forall_mem_singleton.mpr hl⟩, ?_⟩
  rw [hexByte, digitsValue_cons, digitsValue_cons, digitsValue_nil, hhv, hlv]
  omega

theorem hexBytes_spec (hp : Proper 256 bytes) :
    (∀ c ∈ bytes.reverse.flatMap hexByte, isHexDigit c) ∧
      digitsValue 16 0 (bytes.reverse.flatMap hexByte) = value 256 bytes := by
  induction bytes
  case nil             => exact ⟨nofun, rfl⟩
  case cons b bytes hi =>
    have hb := hp b <| .head _
    have ⟨hd, hv⟩ := hi fun b hb => hp b <| .tail _ hb
    have hs := @hexByte_spec (value 256 bytes) b hb
    have he : (b :: bytes).reverse.flatMap hexByte = bytes.reverse.flatMap hexByte ++ hexByte b := by simp
    rw [he]
    refine ⟨fun c hc => ?_, ?_⟩
    · exact (List.mem_append.mp hc).elim (hd c) (hs.left c)
    · rw [digitsValue, List.foldl_append, ←digitsValue, ←digitsValue, hv, hs.right, value_cons]
      ring

end Digits

section Literals

theorem firstType_int (h : IntType.int.wrap x = x) : firstType long x (suffixTypes base []) = .int := by
  have ht : ∃ types, suffixTypes base [] = .int :: types := by
    unfold suffixTypes
    cases decide (base = 10) <;> exact ⟨_, rfl⟩
  have ⟨types, ht⟩ := ht
  have hw : (literalType long .int).wrap x = x := h
  simp [ht, firstType, hw]

-- A natural number of the type `int` is the literal of its decimal digits.
theorem constantLiteralChecked_toDigits (hl : long = 4 ∨ long = 8) (h : m < 2 ^ 31) :
    ∃ c, constantLiteralChecked long false (Nat.toDigits 10 m) = .ok c ∧ c.Represents .int m := by
  have ⟨base, digits, ht, hv⟩ := integerText_toDigits m
  have hx : (m : Int) < 256 ^ 8 := by omega
  have hr := ht.rankedChecked hl
  rw [hv, if_pos hx, firstType_int <| wrap_int_eq_iff.mpr (by omega)] at hr
  have hrep : (typedLiteral long (m : Int) .int).2.Represents .int m :=
    Constant.represents_of_word length_intBytes proper_intBytes <| by
      rw [value_intBytes]
      exact Int.mod_modEq ..
  exact ⟨_, by rw [constantLiteralChecked, hr]; rfl, hrep⟩

theorem constantLiteralChecked_hex (hl : long = 4 ∨ long = 8) (hp : Proper 256 bytes) (h : bytes ≠ [])
    (hb : value 256 bytes < 256 ^ 8) :
    ∃ c, constantLiteralChecked long false ("0x".toList ++ bytes.reverse.flatMap hexByte ++ "ULL".toList) = .ok c ∧
      c.WellFormed ∧ c.value = value 256 bytes := by
  have ⟨hd, hv⟩ := hexBytes_spec hp
  cases hc : bytes.reverse.flatMap hexByte
  case nil =>
    have he : ∀ b ∈ bytes.reverse, hexByte b = [] := by simpa using hc
    cases hr : bytes.reverse
    case nil         => exact absurd (List.reverse_eq_nil_iff.mp hr) h
    case cons b rest => exact absurd (he b <| by rw [hr]; exact .head _) (List.cons_ne_nil _ _)
  case cons d ds =>
    rw [hc] at hd hv
    have ht : IntegerText 16 (d :: ds) "ULL".toList ("0x".toList ++ (d :: ds) ++ "ULL".toList) :=
      .hexadecimal (.inl rfl) hd (List.all_eq_true.mp rfl)
    have hr := ht.rankedChecked hl
    rw [hv, if_pos hb] at hr
    have ⟨hrep, hval⟩ := @typedLiteral_represents long _ (suffixTypes 16 "ULL".toList) hp.value_nonneg hb
    exact ⟨_, by rw [constantLiteralChecked, hr]; rfl, hrep.wellFormed, hval⟩

end Literals

section Runs

theorem run_targetWordSize : Run (targetWordSize scope) st (targetLongSize st : Int) st := by
  have hl : (if st.targetBits = 32 then 4 else 8) = (targetLongSize st : Int) := by
    unfold targetLongSize
    split <;> rfl
  rw [←hl]
  rfl

theorem run_constExprTyped_int (h : constantLiteralChecked (targetLongSize st) false text = .ok c) :
    Run ((typing (fuel + 1)).constExprTyped live (.int text) scope) st c st := by
  refine run_value_bind_iff.mpr ⟨_, _, run_targetWordSize, ?_⟩
  rw [Int.toNat_natCast, h]
  rfl

theorem run_literal (h : m < 2 ^ 31) : ∃ c : Constant, c.Represents .int m ∧ ∀ fuel scope live,
    Run ((typing (fuel + 1)).constExprTyped live (.int (Nat.toDigits 10 m)) scope) st c st := by
  have ⟨c, hc, hr⟩ := constantLiteralChecked_toDigits (targetLongSize_cases st) h
  exact ⟨c, hr, fun _ _ _ => run_constExprTyped_int hc⟩

theorem constantPromote_int (h : c.type = .int) : constantPromote c = c := by
  have hs : c.size = 4 := congrArg IntType.size h
  rw [constantPromote, if_neg (by omega)]

theorem run_negate (h : Run ((typing fuel).constExprTyped live e scope) st c st) (hc : c.type = .int) :
    Run ((typing (fuel + 1)).constExprTyped live (.unary "-" e) scope) st (constantUnary "-" c) st := by
  have hb : Run ((typing fuel).constExprTyped live e scope >>= fun n =>
      (return constantUnary "-" (constantPromote n) : ValueM Constant) scope) st (constantUnary "-" c) st :=
    run_bind_iff.mpr ⟨c, st, h, by rw [constantPromote_int hc]; rfl⟩
  exact hb

theorem run_subtract {a b : Constant} (ha : Run ((typing fuel).constExprTyped live e scope) st a st)
    (hb : ∀ live, Run ((typing fuel).constExprTyped live e' scope) st b st) (hat : a.type = .int)
    (hbt : b.type = .int) (hc : constantBinary "-" a b = .ok c) :
    Run ((typing (fuel + 1)).constExprTyped live (.binary "-" e e') scope) st c st := by
  refine run_value_bind_iff.mpr ⟨a, st, ha, run_value_bind_iff.mpr ⟨b, st, hb _, ?_⟩⟩
  rw [constantPromote_int hat, constantPromote_int hbt, hc]
  rfl

end Runs

section Enumerators

theorem toList_toString (h : 0 ≤ n) : (toString n).toList = Nat.toDigits 10 n.toNat := by
  obtain ⟨m, rfl⟩ := Int.eq_ofNat_of_zero_le h
  exact Nat.toList_repr

theorem Constant.Enumerator.type_of_wide (h : v.Enumerator) (hv : ¬(-2 ^ 31 ≤ v.value ∧ v.value < 2 ^ 31)) :
    (v.size = 4 ∧ v.unsigned = true) ∨ v.size = 8 := by
  have ht := mt h.int.mp hv
  rcases h.integral.standard with hs | hs
  case inr => exact .inr hs
  case inl =>
    refine .inl ⟨hs, ?_⟩
    by_contra hu
    have hu : v.unsigned = false := by simpa using hu
    exact ht <| IntType.ext hs hu

-- A negative number is a difference of numbers of the type `int`.
theorem run_negative (h : -2 ^ 31 ≤ n) (hn : n < 0) : ∃ c : Constant, c.Represents .int n ∧ ∀ fuel scope live,
    Run ((typing (fuel + 3)).constExprTyped live (.binary "-" (.unary "-" (.int (toString (-(n + 1))).toList))
      (.int ['1'])) scope) st c st := by
  rw [toList_toString (by omega)]
  obtain ⟨a, har, ha⟩ := @run_literal (-(n + 1)).toNat st (by omega)
  obtain ⟨b, hbr, hb⟩ := @run_literal 1 st (by decide)
  have hu : (constantUnary "-" a).Represents .int (n + 1) := by
    have hr : (constantUnary "-" a).Represents a.type (UnaryOp.neg.eval a.value) :=
      constantUnary_represents har.wellFormed rfl
    rw [har.type, UnaryOp.eval, har.value, wrap_int_eq_iff.mpr (by omega)] at hr
    have he : -((-(n + 1)).toNat : Int) = n + 1 := by omega
    rwa [he] at hr
  have hs := constantBinary_represents hu.wellFormed hbr.wellFormed (hu.integral <| .inl rfl).standard
    (hbr.integral <| .inl rfl).standard (n := "-") rfl
  rw [if_pos (show BinaryOp.Defined .sub _ _ from trivial), hu.type, hbr.type, hu.value, hbr.value] at hs
  obtain ⟨c, hc, hr⟩ := hs
  have hv : BinaryOp.sub.eval .int .int (IntType.int.wrap (n + 1)) (IntType.int.wrap (1 : Nat)) = n := by
    have hi : IntType.int.common .int = .int := rfl
    have h₁ : IntType.int.wrap (n + 1) = n + 1 := wrap_int_eq_iff.mpr (by omega)
    have h₂ : IntType.int.wrap 1 = 1 := by decide
    rw [BinaryOp.eval, hi, Nat.cast_one, h₂, h₁, h₁, h₂]
    omega
  rw [hv] at hr
  exact ⟨c, hr, fun _ _ _ => run_subtract (run_negate (ha _ _ _) har.type) (fun _ => hb _ _ _) hu.type hbr.type hc⟩

-- A number beyond the type `int` is a conversion of a literal with the same bytes.
theorem run_wide (h : v.Integral) {ty : CType} (ht : ty = .unsigned ∧ v.type = ⟨4, true⟩ ∨
      ty = .unsignedLongLong ∧ v.type = ⟨8, true⟩ ∨ ty = .longLong ∧ v.type = ⟨8, false⟩) :
    Run ((typing (fuel + 3)).constExprTyped live
      (.cast ty (.int ("0x".toList ++ v.bytes.reverse.flatMap hexByte ++ "ULL".toList))) scope) st v st := by
  have hl : v.bytes.length = 4 ∨ v.bytes.length = 8 := h.wellFormed.length ▸ h.standard
  have hb : value 256 v.bytes < 256 ^ 8 := by
    have hlt := h.wellFormed.proper.value_lt
    have hp : (256 : Int) ^ v.bytes.length ≤ 256 ^ 8 := pow_le_pow_right₀ (by decide) (by omega)
    omega
  have ⟨c, hc, hw, hv⟩ := constantLiteralChecked_hex (targetLongSize_cases st) h.wellFormed.proper
    (List.ne_nil_of_length_pos (by omega)) hb
  have hcv : constantConvert v.size v.unsigned c = v := by
    have hr : (constantConvert v.size v.unsigned c).Represents v.type c.value :=
      constantConvert_represents (t := v.type) hw
    refine hr.wellFormed.ext h.wellFormed hr.type ?_
    rw [hr.value, hv, Constant.value]
  have hi : Run ((typing (fuel + 2)).constExprTyped live
      (.int ("0x".toList ++ v.bytes.reverse.flatMap hexByte ++ "ULL".toList)) scope) st c st :=
    run_constExprTyped_int hc
  have hcast : Run ((typing (fuel + 2)).castConstant ty c scope) st v st := by
    rw [←hcv]
    rcases ht with ⟨rfl, ht⟩ | ⟨rfl, ht⟩ | ⟨rfl, ht⟩
    all_goals
      have hs : v.size = _ := congrArg IntType.size ht
      have hu : v.unsigned = _ := congrArg IntType.unsigned ht
      rw [hs, hu]
      rfl
  have hr : Run ((typing (fuel + 2)).constExprTyped live
      (.int ("0x".toList ++ v.bytes.reverse.flatMap hexByte ++ "ULL".toList)) scope >>= fun c =>
      (typing (fuel + 2)).castConstant ty c scope) st v st := run_bind_iff.mpr ⟨c, st, hi, hcast⟩
  exact hr

theorem parserConstantExpr_some (h : constantToIntChecked v = some n) : parserConstantExpr v =
    if n < 0 then .binary "-" (.unary "-" (.int (toString (-(n + 1))).toList)) (.int ['1'])
    else .int (toString n).toList := by
  rw [parserConstantExpr, h]

theorem parserConstantExpr_none (h : constantToIntChecked v = none) : parserConstantExpr v =
    .cast (if v.size ≤ 4 then .unsigned else if v.unsigned then .unsignedLongLong else .longLong)
      (.int ("0x".toList ++ v.bytes.reverse.flatMap hexByte ++ "ULL".toList)) := by
  rw [parserConstantExpr, h]
  rfl

-- Every constant that the parser binds is spelled as an expression that evaluates to this constant, in every scope
-- and state, also in an arm that is not evaluated.
theorem parserConstantExpr_evaluates (v : Constant) (h : v.Enumerator) (fuel : Nat) (live : Bool) (scope : Scope)
    (st : ValueState) : Run ((typing (fuel + 3)).constExprTyped live (parserConstantExpr v) scope) st v st := by
  have hs := constantToIntChecked_eq h.integral
  split_ifs at hs with hv
  case pos =>
    have ht := h.int.mpr hv
    have hx := wrap_int_eq_iff.mpr hv
    have he {c : Constant} (hr : c.Represents .int v.value) : c = v :=
      hr.wellFormed.ext h.integral.wellFormed (hr.type.trans ht.symm) (hr.value.trans hx)
    rw [parserConstantExpr_some hs]
    by_cases hn : v.value < 0
    case pos =>
      have ⟨c, hr, hrun⟩ := @run_negative v.value st hv.left hn
      rw [if_pos hn, ←he hr]
      rw [←he hr] at hrun
      exact hrun fuel scope live
    case neg =>
      have ⟨c, hr, hrun⟩ := @run_literal v.value.toNat st (by omega)
      rw [Int.toNat_of_nonneg (by omega)] at hr
      rw [if_neg hn, toList_toString (by omega)]
      exact he hr ▸ hrun (fuel + 2) scope live
  case neg =>
    rw [parserConstantExpr_none hs]
    apply run_wide h.integral
    rcases h.type_of_wide hv with ⟨hs, hu⟩ | hs
    case inl => exact .inl ⟨by simp [hs], by simp [Constant.type, hs, hu]⟩
    case inr =>
      cases hu : v.unsigned
      case true  => exact .inr <| .inl ⟨by simp [hs], by simp [Constant.type, hs, hu]⟩
      case false => exact .inr <| .inr ⟨by simp [hs], by simp [Constant.type, hs, hu]⟩

theorem parserConstantExpr_evaluates_five : Run ((typing 3).constExprTyped true (parserConstantExpr (constantInt 4 5))
    scopeMapEmpty) {} (constantInt 4 5) {} :=
  parserConstantExpr_evaluates _ (constantInt_int (x := 5) (by decide)).left 0 true _ _
end Enumerators
end Hcc
