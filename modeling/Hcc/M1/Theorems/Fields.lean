import Hcc.Library.Fields
import Hcc.M1.Encode

open CInteger Fields

namespace Hcc.M1

variable {tok : List Char} {toks : List (List Char)} {n : Int}

-- The fields of a line.
abbrev Line (toks : List (List Char)) : List Char :=
  join ' ' toks

section Parse

variable {f : α → Parse β} {e : String}

-- The proofs are opaque to `dsimp`, as the kernel would otherwise compare discarded branches.
theorem ok_bind : (.ok a >>= f) = f a := (rfl)

theorem error_bind : (.error e >>= f) = .error e := (rfl)

theorem pure_eq_ok : (pure a : Parse α) = .ok a := (rfl)

end Parse

-- A sequence of characters without whitespace.
def Clear (tok : List Char) : Prop :=
  ∀ c ∈ tok, isSpaceChar c = false ∧ c ≠ '\x00'

theorem Clear.cons (hc : isSpaceChar c = false ∧ c ≠ '\x00') (h : Clear tok) : Clear (c :: tok) := by
  simpa [Clear] using ⟨hc, h⟩

theorem Clear.isField (h : Clear tok) (hn : tok ≠ []) : IsField isBlank tok where
  nonempty   := hn
  solid c hc := by
    have := (h c hc).left
    simp only [isSpaceChar, Bool.or_eq_false_iff, decide_eq_false_iff_not] at this
    simp [isBlank, this]

section Tokens

theorem nextToken_line (h : IsField isBlank tok) :
    nextToken (Line (tok :: toks)) = (some tok, Line toks) := by
  have hb : isBlank ' ' = true := rfl
  have hd : (Line (tok :: toks)).dropWhile isBlank = Line (tok :: toks) := dropWhile_blank h
  simp only [nextToken, hd]
  rcases hl : Line (tok :: toks) with _ | ⟨c, cs⟩
  case nil =>
    rcases tok with _ | ⟨c, tok⟩
    case nil  => exact absurd rfl h.nonempty
    case cons => cases toks <;> simp [join] at hl
  case cons =>
    simp only [Line] at hl
    simp only
    rw [←hl, takeWhile_not_blank hb h, dropWhile_not_blank hb h]

theorem needToken_line (h : IsField isBlank tok) :
    needToken (Line (tok :: toks)) = .ok (tok, Line toks) := by
  rw [needToken, nextToken_line h]

end Tokens

section Numbers

def digits (n : Int) : List Char :=
  (toString n).toList

theorem toList_tempText : (tempText t).toList = digits t.index := rfl

theorem toList_blockIdText : (blockIdText bid).toList = digits bid.index := rfl

theorem digits_eq :
    digits n = if 0 ≤ n then Nat.toDigits 10 n.toNat else '-' :: Nat.toDigits 10 (-n).toNat := by
  rw [digits, Int.toString_eq_repr, Int.repr_eq_if]
  split <;> simp

theorem isDigit_iff : c.isDigit = true ↔ ('0' ≤ c && c ≤ '9') = true := by
  simp [Char.isDigit, Char.le_def]

theorem clear_of_isDigit (h : c.isDigit) : isSpaceChar c = false ∧ c ≠ '\x00' := by
  simp only [isSpaceChar, Bool.or_eq_false_iff, decide_eq_false_iff_not]
  refine ⟨⟨⟨⟨⟨⟨?_, ?_⟩, ?_⟩, ?_⟩, ?_⟩, ?_⟩, ?_⟩ <;> exact fun hc => by simp [hc] at h

theorem digits_ne_nil (n : Int) : digits n ≠ [] := by
  rw [digits_eq]
  split <;> simp [Nat.toDigits_ne_nil]

theorem digits_clear (n : Int) : Clear (digits n) := by
  have hd (k : Nat) : Clear (Nat.toDigits 10 k) := fun c hc =>
    clear_of_isDigit <| Nat.isDigit_of_mem_toDigits (by decide) (by decide) hc
  rw [digits_eq]
  split
  · exact hd _
  · exact (hd _).cons (by decide)

theorem digits_isField (n : Int) : IsField isBlank (digits n) :=
  (digits_clear n).isField (digits_ne_nil n)

theorem digits_natCast_ne_dash (n : Nat) : digits n ≠ ['-'] := by
  rw [digits_eq, if_pos (Int.natCast_nonneg n)]
  intro h
  have hd : '-' ∈ Nat.toDigits 10 (n : Int).toNat := h ▸ .head _
  exact absurd (Nat.isDigit_of_mem_toDigits (by decide) (by decide) hd) (by decide)

-- The digits are read modulo the width of the accumulator.
theorem parseLongText.digits_modEq {k : Nat} (h : v ≡ k [ZMOD long.modulus])
    (hd : ∀ c ∈ ds, c.isDigit) :
    ∃ w, digits v ds = (w, []) ∧ w ≡ (Nat.ofDigitChars 10 ds k : Nat) [ZMOD long.modulus] := by
  induction ds generalizing v k
  case nil => exact ⟨v, rfl, by simpa⟩
  case cons c ds hi =>
    have hc := hd c (.head _)
    rw [digits, if_pos (isDigit_iff.mp hc), Nat.ofDigitChars_cons]
    refine hi ?_ fun c hc => hd c (.tail _ hc)
    have h₀ : '0'.toNat ≤ c.toNat := by simp [Char.isDigit] at hc; exact hc.left
    refine IntType.wrap_modEq.trans ?_
    rw [Nat.cast_add, Nat.cast_mul, Nat.cast_sub h₀, mul_comm]
    exact (h.mul_left 10).add_right _

theorem parseLongText_unsigned (hd : ∀ c ∈ ds, c.isDigit) :
    parseLongText ds = .ok (long.wrap (Nat.ofDigitChars 10 ds 0)) := by
  have ⟨w, hw, hm⟩ := parseLongText.digits_modEq (k := 0) (v := 0) rfl hd
  have hs : parseLongText.sign ds = (1, ds) := by
    unfold parseLongText.sign
    split
    case h_1 => exact absurd (hd '-' (.head _)) (by decide)
    case h_2 => rfl
  simp only [parseLongText, hs, hw]
  rw [if_neg (by simp), one_mul, IntType.wrap_congr hm]

theorem parseLongText_signed (hd : ∀ c ∈ ds, c.isDigit) :
    parseLongText ('-' :: ds) = .ok (long.wrap (-Nat.ofDigitChars 10 ds 0)) := by
  have ⟨w, hw, hm⟩ := parseLongText.digits_modEq (k := 0) (v := 0) rfl hd
  simp only [parseLongText, parseLongText.sign, hw]
  rw [if_neg (by simp), neg_one_mul, IntType.wrap_congr hm.neg]

theorem parseLongText_digits (n : Int) : parseLongText (digits n) = .ok (long.wrap n) := by
  have hd (k : Nat) : ∀ c ∈ Nat.toDigits 10 k, c.isDigit := fun c hc =>
    Nat.isDigit_of_mem_toDigits (by decide) (by decide) hc
  rw [digits_eq]
  split
  case isTrue h =>
    rw [parseLongText_unsigned (hd _), Nat.ofDigitChars_ten_toDigits, Int.toNat_of_nonneg h]
  case isFalse h =>
    rw [parseLongText_signed (hd _), Nat.ofDigitChars_ten_toDigits, Int.toNat_of_nonneg (by omega),
      neg_neg]

theorem wrap_int_iff : IntType.int.wrap n = n ↔ FitsInt n := by
  simp only [IntType.wrap_eq_self_iff, IntType.int, IntType.modulus, FitsInt, Bool.false_eq_true,
    if_false]
  omega

theorem wrap_long_iff : long.wrap n = n ↔ FitsLong n := by
  simp only [IntType.wrap_eq_self_iff, long, IntType.modulus, FitsLong, Bool.false_eq_true, if_false]
  omega

theorem wrap_long : IntType.int.wrap (long.wrap n) = IntType.int.wrap n := by
  refine IntType.wrap_congr <| Int.ModEq.of_dvd ?_ IntType.wrap_modEq
  decide

theorem parseLongToken_line :
    parseLongToken (Line (digits n :: toks)) = .ok (long.wrap n, Line toks) := by
  simp only [parseLongToken, needToken_line (digits_isField n), parseLongText_digits, ok_bind,
    pure_eq_ok]

theorem parseIntToken_line :
    parseIntToken (Line (digits n :: toks)) = .ok (IntType.int.wrap n, Line toks) := by
  simp only [parseIntToken, parseLongToken_line, ok_bind, pure_eq_ok, wrap_long]

end Numbers

section Operands

def operandFields : Hcc.Operand → List (List Char)
  | .temp t         => ['T' :: digits t.index]
  | .imm value      => ['I' :: digits value]
  | .immBytes bytes => ('B' :: digits bytes.length) :: bytes.map digits
  | .global name    => ['G' :: name.toList]
  | .function name  => ['F' :: name.toList]

theorem operandFields_ne_nil (op) : operandFields op ≠ [] := by
  cases op <;> simp [operandFields]

theorem toList_listIrFields {r : α → String} {f : α → List (List Char)}
    (h : ∀ a, (r a).toList = Line (f a)) (hn : ∀ a, f a ≠ []) (as : List α) :
    (listIrFields r as).toList = Line (digits as.length :: as.flatMap f) := by
  have hr : (listIrFieldsRest r as).toList = as.flatMap fun a => ' ' :: Line (f a) := by
    induction as <;> simp_all [listIrFieldsRest]
  rw [Line, join_cons_flatMap hn, listIrFields, String.toList_append, hr]
  rfl

theorem cons_line (c : Char) : c :: Line (tok :: toks) = Line ((c :: tok) :: toks) := by
  cases toks <;> simp [Line, join]

theorem toList_operandIrFields (op) : (operandIrFields op).toList = Line (operandFields op) := by
  cases op
  case immBytes bytes =>
    have h := toList_listIrFields (r := toString) (f := ([digits ·])) (fun n => rfl) (by simp) bytes
    rw [←List.map_eq_flatMap] at h
    simp only [operandIrFields, operandFields, String.toList_append, h]
    exact cons_line 'B'
  all_goals simp [operandIrFields, operandFields, toList_tempText, digits]

theorem operandFields_clear (hs : ∀ name ∈ operandNames op, Solid name) :
    ∀ tok ∈ operandFields op, Clear tok := by
  cases op
  case temp | imm => simpa [operandFields] using (digits_clear _).cons (by decide)
  case global name | function name =>
    simpa [operandFields] using Clear.cons (by decide) (hs name (.head _))
  case immBytes bytes =>
    simpa [operandFields] using
      ⟨(digits_clear _).cons (by decide), fun byte _ => digits_clear byte⟩

theorem parseMany_line {p : Cursor → Parse (α × Cursor)} {f : β → List (List Char)} {g : β → α}
    {bs : List β} (h : ∀ b ∈ bs, ∀ toks, p (Line (f b ++ toks)) = .ok (g b, Line toks)) :
    parseMany p bs.length (Line (bs.flatMap f ++ toks)) = .ok (bs.map g, Line toks) := by
  induction bs
  case nil => rfl
  case cons b bs hi =>
    have hb := h b (.head _) (bs.flatMap f ++ toks)
    have hs := hi fun b hb => h b (.tail _ hb)
    simp only [List.length_cons, parseMany, List.flatMap_cons, List.append_assoc, hb, hs, ok_bind,
      pure_eq_ok, List.map_cons]

-- The number of fields of a line fits into an `int`.
theorem wrap_count {n : Nat} (h : n ≤ LINE_CAP) : IntType.int.wrap n = n := by
  have h : n ≤ 8192 := h
  exact wrap_int_iff.mpr ⟨by omega, by omega⟩

theorem parseIrOperand_line (op) (hs : ∀ name ∈ operandNames op, Solid name)
    (hl : (operandFields op).length ≤ LINE_CAP) :
    parseIrOperand (Line (operandFields op ++ toks)) =
      .ok (encodeOperand IntType.int.wrap long.wrap op, Line toks) := by
  have hf tok (h : tok ∈ operandFields op) (hn : tok ≠ []) := (operandFields_clear hs tok h).isField hn
  cases op
  case temp | imm =>
    have h := @needToken_line _ toks <| hf _ (.head _) (by simp)
    simp only [operandFields, List.cons_append, List.nil_append, parseIrOperand, h,
      parseLongText_digits, ok_bind, pure_eq_ok, encodeOperand]
  case global | function =>
    have h := @needToken_line _ toks <| hf _ (.head _) (by simp)
    simp only [operandFields, List.cons_append, List.nil_append, parseIrOperand, h, ok_bind,
      pure_eq_ok, encodeOperand, String.ofList_toList]
  case immBytes bytes =>
    have h := @needToken_line _ (bytes.map digits ++ toks) <| hf _ (.head _) (by simp)
    have hb : parseMany parseIntToken bytes.length (Line (bytes.flatMap ([digits ·]) ++ toks)) =
        .ok (bytes.map IntType.int.wrap, Line toks) := parseMany_line fun _ _ _ => parseIntToken_line
    rw [←List.map_eq_flatMap] at hb
    have hl : bytes.length ≤ LINE_CAP := by simp [operandFields] at hl; omega
    simp only [operandFields, List.cons_append, parseIrOperand, h, parseLongText_digits, ok_bind,
      wrap_long, wrap_count hl, Int.toNat_natCast, hb, pure_eq_ok, encodeOperand]

theorem parseLongText_error (hd : isDigitChar c = false) (hc : c ≠ '-') :
    ∃ e, parseLongText (c :: tok) = .error e := by
  have hs : parseLongText.sign (c :: tok) = (1, c :: tok) := by
    unfold parseLongText.sign
    split <;> simp_all
  have hd : parseLongText.digits 0 (c :: tok) = (0, c :: tok) := by
    rw [parseLongText.digits, if_neg]
    simpa [isDigitChar] using hd
  exact ⟨_, by simp only [parseLongText, hs, hd]; rw [if_pos nofun]⟩

-- An operand is not read as a number.
theorem parseIntToken_operand (op) (hs : ∀ name ∈ operandNames op, Solid name) :
    ∃ e, parseIntToken (Line (operandFields op ++ toks)) = .error e := by
  have ⟨c, tok, toks', ho, hd, hc⟩ : ∃ c tok toks',
      operandFields op = (c :: tok) :: toks' ∧ isDigitChar c = false ∧ c ≠ '-' := by
    cases op <;> exact ⟨_, _, _, rfl, rfl, by decide⟩
  have hf := (operandFields_clear hs (c :: tok) (ho ▸ .head _)).isField nofun
  have ⟨e, he⟩ : ∃ e, parseLongText (c :: tok) = .error e := parseLongText_error hd hc
  refine ⟨e, ?_⟩
  simp only [ho, List.cons_append, parseIntToken, parseLongToken, needToken_line hf, he, ok_bind,
    error_bind]

end Operands
end Hcc.M1
