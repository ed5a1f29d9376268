import Hcc.Driver.Basic
import Hcc.Literal.Theorems.Escape
import Hcc.Preprocessor.Theorems.Spelling

namespace Hcc

variable {text rest : List Char} {toks : List PPToken} {st : LexState}

section Bytes

theorem decodeEscape_slash : decodeEscape ('\\' :: text) = (92, text) := by
  rw [decodeEscape]

theorem decodeEscape_quote : decodeEscape ('"' :: text) = (34, text) := by
  rw [decodeEscape]

-- The decoder undoes the escapes of quotes and backslashes, and nothing else is an escape.
theorem stringBytesFrom_escapeString :
    stringBytesFrom (escapeString text) = text.map (fun c => (c.toNat : Int)) ++ [0] := by
  fun_induction escapeString text
  case case1    => rw [stringBytesFrom, List.map_nil, List.nil_append]
  case case2 hi =>
    rw [stringBytesFrom, decodeEscape_slash, List.map_cons, List.cons_append, ←hi]
    rfl
  case case3 hi =>
    rw [stringBytesFrom, decodeEscape_quote, List.map_cons, List.cons_append, ←hi]
    rfl
  case case4 hs _ hi =>
    rw [stringBytesFrom, hi, List.map_cons, List.cons_append]
    exact hs

theorem stringifyTokens_toList :
    (stringifyTokens toks).toList = stringOf (escapeString (sourceSpelling toks).toList) := by
  simp [stringifyTokens, stringOf]

theorem stringBytes_stringifyTokens : stringBytes (stringifyTokens toks).toList =
    (sourceSpelling toks).toList.map (fun c => (c.toNat : Int)) ++ [0] := by
  rw [stringifyTokens_toList, stringBytes_stringOf, stringBytesFrom_escapeString]

end Bytes
section Spelling

theorem mem_text : c ∈ (sourceSpelling.text toks).toList → c = ' ' ∨ ∃ tok ∈ toks, c ∈ (tokenText tok.token.kind).toList := by
  induction toks
  case nil            => exact fun h => nomatch h
  case cons tok xs hi =>
    rw [sourceSpelling.text, String.toList_append, String.toList_append, List.mem_append, List.mem_append]
    rintro ((h | h) | h)
    · left
      split at h
      case isTrue  => exact List.mem_singleton.mp h
      case isFalse => contradiction
    · exact .inr ⟨tok, .head _, h⟩
    · exact (hi h).imp_right fun ⟨tok, hm, hc⟩ => ⟨tok, .tail _ hm, hc⟩

theorem text_mem {tok : PPToken} (ht : tok ∈ toks) (hc : c ∈ (tokenText tok.token.kind).toList) :
    c ∈ (sourceSpelling.text toks).toList := by
  induction toks
  case nil            => contradiction
  case cons _ xs hi =>
    rw [sourceSpelling.text, String.toList_append, String.toList_append, List.mem_append, List.mem_append]
    rcases List.mem_cons.mp ht with rfl | ht
    · exact .inl <| .inr hc
    · exact .inr <| hi ht

-- The spaces between tokens are no newlines.
theorem newline_mem_sourceSpelling : '\n' ∈ (sourceSpelling toks).toList ↔
    ∃ tok ∈ toks, '\n' ∈ (tokenText tok.token.kind).toList := by
  cases toks
  case nil         => simp [sourceSpelling, leadingSpace, sourceSpelling.text]
  case cons tok xs =>
    have hx (space) : (∃ t ∈ leadingSpace space (tok :: xs), '\n' ∈ (tokenText t.token.kind).toList) ↔
        ∃ t ∈ tok :: xs, '\n' ∈ (tokenText t.token.kind).toList := by
      simp [leadingSpace]
    rw [sourceSpelling, ←hx false]
    constructor
    · exact fun h => (mem_text h).resolve_left (by decide)
    · rintro ⟨_, ht, hc⟩
      exact text_mem ht hc

end Spelling
section Literal

theorem lexQuoted.go_newline {acc : List Char} (h : '\n' ∈ text) :
    ∃ e, go '"' .string start st acc (escapeString text ++ rest) = .error e := by
  fun_induction escapeString text generalizing st acc
  case case1    => contradiction
  case case2 hi =>
    rw [List.cons_append, List.cons_append, go_escape (by decide)]
    exact hi <| (List.mem_cons.mp h).resolve_left (by decide)
  case case3 hi =>
    rw [List.cons_append, List.cons_append, go_escape (by decide)]
    exact hi <| (List.mem_cons.mp h).resolve_left (by decide)
  case case4 c _ hs hq hi =>
    rw [List.cons_append]
    by_cases hn : c = '\n'
    · subst hn
      exact ⟨_, by rw [go.eq_def]; rfl⟩
    · rw [go_char hq hs hn]
      exact hi <| (List.mem_cons.mp h).resolve_left (Ne.symm hn)

-- A text that starts with a quote is lexed as a literal.
theorem lexC.go_string {cs : List Char} {acc : List Token} (h : st.input = '"' :: cs) :
    go (bound + 1) st acc = (lexQuoted '"' .string st).bind fun result => go bound result.2 (result.1 :: acc) := by
  have hc : isIdentStart '"' = false ∧ isDigitChar '"' = false ∧ '"' ≠ '\'' := by decide
  simp [(Ordinary.of_ne h (by decide) (by decide) (by decide)).go, hc]
  rfl

theorem lexC_stringOf (h : source.toList = stringOf text) : lexC source =
    (lexQuoted.go '"' .string ⟨1, 1⟩ ⟨stringOf text, ⟨1, 2⟩, false⟩ ['"'] (text ++ ['"'])).bind fun result =>
      lexC.go (text.length + 1) result.2 [result.1] := by
  have hl : source.toList.length = text.length + 1 + 1 := by
    rw [h, stringOf, List.cons_append, List.length_cons, List.length_append, List.length_singleton]
  have hs : lexQuoted '"' .string ⟨stringOf text, ⟨1, 1⟩, true⟩ =
      lexQuoted.go '"' .string ⟨1, 1⟩ ⟨stringOf text, ⟨1, 2⟩, false⟩ ['"'] (text ++ ['"']) := rfl
  rw [lexC, hl, lexC.go_string (show _ = '"' :: (text ++ ['"']) from h), h, hs]

theorem LiteralBody.lexC (hb : LiteralBody '"' text) (h : source.toList = stringOf text) :
    ∃ sp, lexC source = .ok [⟨sp, .string source⟩] := by
  have ⟨sp, pos, he⟩ : ∃ sp pos, lexQuoted.go '"' .string ⟨1, 1⟩ ⟨stringOf text, ⟨1, 2⟩, false⟩ ['"'] (text ++ ['"']) =
      .ok (⟨sp, .string (.ofList (['"'].reverse ++ text ++ ['"']))⟩, ⟨[], pos, false⟩) :=
    hb.lexes (by decide) (by decide) fun h => absurd h (by decide)
  have ht : String.ofList (['"'].reverse ++ text ++ ['"']) = source := by
    rw [←String.ofList_toList (s := source), h]
    rfl
  rw [lexC_stringOf h, he, ht]
  exact ⟨sp, lexC.go_nil rfl⟩

theorem lexC_newline (hn : '\n' ∈ text) (h : source.toList = stringOf (escapeString text)) :
    ∃ e, lexC source = .error e := by
  have ⟨e, he⟩ : ∃ e, lexQuoted.go '"' .string ⟨1, 1⟩ ⟨stringOf (escapeString text), ⟨1, 2⟩, false⟩ ['"']
      (escapeString text ++ ['"']) = .error e :=
    lexQuoted.go_newline hn
  rw [lexC_stringOf h, he]
  exact ⟨e, rfl⟩

-- The literal is lexed as one string token.
def LexedBack (toks : List PPToken) : Prop :=
  ∃ sp, lexC (stringifyTokens toks) = .ok [⟨sp, .string (stringifyTokens toks)⟩]

theorem lexedBack_iff : LexedBack toks ↔ '\n' ∉ (sourceSpelling toks).toList := by
  constructor
  case mp =>
    rintro ⟨sp, h⟩ hn
    have ⟨_, he⟩ := lexC_newline hn stringifyTokens_toList
    exact nomatch h.symm.trans he
  case mpr => exact fun hn => (literalBody_escapeString hn).lexC stringifyTokens_toList

end Literal

-- The literal is exact, and only a newline in a token keeps it from being lexed back.
theorem stringifyTokens_exact :
    stringBytes (stringifyTokens toks).toList = (sourceSpelling toks).toList.map (fun c => (c.toNat : Int)) ++ [0] ∧
    (LexedBack toks ↔ ∀ tok ∈ toks, '\n' ∉ (tokenText tok.token.kind).toList) := by
  rw [lexedBack_iff, newline_mem_sourceSpelling, not_exists]
  exact ⟨stringBytes_stringifyTokens, forall_congr' fun _ => not_and⟩

-- The lexer accepts a newline behind a backslash in a literal, but not behind two.
theorem not_lexedBack : ∃ toks, lexPlainSource "\"\\\\\x0d\n\n\"" = .ok toks ∧ lexC "\"\\\n\"" = .ok toks ∧
    ¬LexedBack (sourceFromTokens toks) := by
  have hp : lexPlainSource "\"\\\\\x0d\n\n\"" = .ok [⟨⟨⟨1, 1⟩, ⟨2, 2⟩⟩, .string "\"\\\n\""⟩] := by decide
  have hl : lexC "\"\\\n\"" = .ok [⟨⟨⟨1, 1⟩, ⟨2, 2⟩⟩, .string "\"\\\n\""⟩] := by decide
  refine ⟨_, hp, hl, lexedBack_iff.not.mpr ?_⟩
  decide

end Hcc
