import Hcc.Lexer.Basic
import Hcc.Literal.Basic

-- The bytes of character and string literals.
namespace Hcc

variable {body chars text : List Char} {v : Int} {n : Nat}

section Strings

-- The token of a string with the given body.
def stringOf (body : List Char) : List Char :=
  '"' :: body ++ ['"']

theorem stringBytes_stringOf : stringBytes (stringOf chars) = stringBytesFrom chars := by
  rw [stringBytes, stringOf, List.cons_append, stripLeadingQuote, stripTrailingQuote, List.reverse_append,
    List.reverse_singleton, List.singleton_append, stripLeadingQuote, List.reverse_reverse]

theorem stringBytesFrom_last : stringBytesFrom chars = (stringBytesFrom chars).dropLast ++ [0] := by
  fun_induction stringBytesFrom chars
  case case1 => rfl
  case case2 hi =>
    conv_lhs => rw [hi]
    rw [List.dropLast_cons_of_ne_nil (by rw [hi]; simp), List.cons_append]
  case case3 hi =>
    conv_lhs => rw [hi]
    rw [List.dropLast_cons_of_ne_nil (by rw [hi]; simp), List.cons_append]

end Strings
section Characters

-- The token of a character with the given body.
def charOf (body : List Char) : List Char :=
  '\'' :: body ++ ['\'']

-- The character is an octal or hexadecimal escape of a byte from 128 on, or another character with such a code.
def HighByte : List Char → Prop
  | '\\' :: 'x' :: rest => 128 ≤ (rest.takeWhile isHexDigit).foldl (fun n c => n * 16 + hexDigit c) 0
  | '\\' :: c :: rest   =>
    if isOctalDigit c then
      128 ≤ (((c :: rest).takeWhile isOctalDigit).take 3).foldl (fun n c => n * 8 + decimalDigit c) 0
    else 128 ≤ c.toNat
  | c :: _              => 128 ≤ c.toNat
  | []                  => False

theorem readHexEscapeFrom_eq : (readHexEscapeFrom v text).1 =
    (text.takeWhile isHexDigit).foldl (fun n c => n * 16 + hexDigit c) v := by
  fun_induction readHexEscapeFrom v text
  case case1 => rfl
  case case2 h hi => simp_all
  case case3 h => simp [h]

theorem readOctalEscape_eq (hn : n ≤ 3) : (readOctalEscape n v text).1 =
    ((text.takeWhile isOctalDigit).take (3 - n)).foldl (fun n c => n * 8 + decimalDigit c) v := by
  fun_induction readOctalEscape n v text
  case case1 => simp
  case case2 n _ _ _ h =>
    have hz : 3 - n = 0 := by omega
    rw [hz]
    rfl
  case case3 n v c rest hl h hi =>
    have hs : 3 - n = 3 - (n + 1) + 1 := by omega
    rw [hi (by omega), List.takeWhile_cons_of_pos h, hs, List.take_succ_cons, List.foldl_cons]
  case case4 h => simp [h]

-- Without digits, the escape is that of the letter `x`.
theorem readHexEscape_high : 128 ≤ (readHexEscape text).1 ↔
    128 ≤ (text.takeWhile isHexDigit).foldl (fun n c => n * 16 + hexDigit c) 0 := by
  rw [←readHexEscapeFrom_eq, readHexEscape]
  split
  case h_1 value rest consumed h =>
    rw [h]
    cases consumed
    case true  => rfl
    case false =>
      have hv : value = 0 := by
        unfold readHexEscapeFrom at h
        split at h
        case h_1 => exact (Prod.mk.inj h).left.symm
        case h_2 =>
          split at h
          case isTrue  => cases h
          case isFalse => exact (Prod.mk.inj h).left.symm
      subst hv
      exact iff_of_false (show ¬(128 : Int) ≤ 'x'.toNat by decide) (show ¬(128 : Int) ≤ 0 by decide)

theorem highByte_octal (hx : c ≠ 'x') : HighByte ('\\' :: c :: text) ↔
    if isOctalDigit c then
      128 ≤ (((c :: text).takeWhile isOctalDigit).take 3).foldl (fun n c => n * 8 + decimalDigit c) 0
    else 128 ≤ c.toNat := by
  rw [HighByte]
  exact fun he => absurd he hx

theorem decodeEscape_high (h : text ≠ []) : 128 ≤ (decodeEscape text).1 ↔ HighByte ('\\' :: text) := by
  fun_cases decodeEscape text
  case case11 => exact readHexEscape_high
  case case12 c rest _ _ _ _ _ _ _ _ _ _ hx ho =>
    rw [highByte_octal fun he => hx he, if_pos ho]
    exact Eq.to_iff <| congrArg _ <| readOctalEscape_eq (Nat.zero_le 3)
  case case13 c rest _ _ _ _ _ _ _ _ _ _ hx ho =>
    rw [highByte_octal fun he => hx he, if_neg ho]
    exact Int.ofNat_le
  case case14 => contradiction
  all_goals
    rw [highByte_octal (by decide), if_neg (by decide)]
    dsimp only
    decide

theorem dropClosingQuote_append : dropClosingQuote (text ++ ['\'']) = text := by
  simp [dropClosingQuote]

theorem head_stringBytesFrom (h : validCharBody body) :
    (stringBytesFrom body).head? = some (charValue (charOf body)) := by
  unfold validCharBody at h
  split at h
  case h_1 => contradiction
  case h_2 rest =>
    rw [stringBytesFrom, charOf, List.cons_append, List.cons_append, charValue, dropClosingQuote_append]
    rfl
  case h_3 c hn =>
    rw [stringBytesFrom, charOf, List.cons_append, List.singleton_append, charValue]
    case x_1 => exact hn
    case x_1 => exact fun he => absurd he hn
    rfl
  case h_4 => contradiction

theorem charValue_high (h : validCharBody body) : 128 ≤ charValue (charOf body) ↔ HighByte body := by
  unfold validCharBody at h
  split at h
  case h_1 => contradiction
  case h_2 rest =>
    rw [charOf, List.cons_append, List.cons_append, charValue, dropClosingQuote_append]
    exact decodeEscape_high <| by simpa using h
  case h_3 c hn =>
    rw [charOf, List.cons_append, List.singleton_append, charValue, HighByte]
    case x_1 => nofun
    case x_1 => exact fun he => absurd he hn
    case x_2 => nofun
    exact Int.ofNat_le
  case h_4 => contradiction

end Characters
end Hcc
