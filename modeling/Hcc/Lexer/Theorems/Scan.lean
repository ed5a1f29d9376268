import Hcc.Lexer.Theorems.Spelling

namespace Hcc

-- A step of the lexer, together with everything that makes the lexer choose it.
inductive Scan (st : LexState) : Option Token → LexState → Prop
  | space : st.input = c :: cs → isSpaceChar c → Scan st none (advanceSpace c { st with input := cs })
  | directive : st.input = '#' :: cs → st.bol → lexDirective st = .ok (tok, st') → Scan st tok st'
  | lineComment : st.input = '/' :: '/' :: cs → Scan st none (skipLineComment st)
  | blockComment : st.input = '/' :: '*' :: cs → skipBlockComment st = .ok st' → Scan st none st'
  | ident : st.input = c :: cs → isIdentStart c → Scan st (lexIdent st).1 (lexIdent st).2
  | number : st.input = c :: cs → isDigitChar c → lexNumber st = .ok (tok, st') → Scan st tok st'
  | char : st.input = '\'' :: cs → lexQuoted '\'' .char st = .ok (tok, st') → Scan st tok st'
  | string : st.input = '"' :: cs → lexQuoted '"' .string st = .ok (tok, st') → Scan st tok st'
  | punct : Ordinary st c → isIdentStart c = false → isDigitChar c = false → c ≠ '\'' → c ≠ '"' →
    lexPunct st = some (tok, st') → Scan st tok st'

variable {st st' : LexState} {tok : Token} {toks acc : List Token} {tok? : Option Token}

theorem startsLineComment_iff {input : List Char} : startsLineComment input ↔ ∃ cs, input = '/' :: '/' :: cs := by
  rw [startsLineComment, List.isPrefixOf_iff_prefix]
  exact exists_congr fun _ => eq_comm

theorem startsBlockComment_iff {input : List Char} : startsBlockComment input ↔ ∃ cs, input = '/' :: '*' :: cs := by
  rw [startsBlockComment, List.isPrefixOf_iff_prefix]
  exact exists_congr fun _ => eq_comm

theorem Scan.lt (h : Scan st tok? st') : st'.input.length < st.input.length := by
  cases h
  case space h _          => simp [advanceSpace, h]
  case directive hi _ h   =>
    rw [←(Prod.mk.inj (Except.ok.inj h)).right]
    exact takeUntilNewline_lt hi
  case lineComment hi     => exact takeUntilNewline_lt hi
  case blockComment hi h  => exact skipBlockComment_lt h <| startsBlockComment_iff.mpr ⟨_, hi⟩
  case ident hi hc        => exact takeWhileColumns_lt hi <| isIdentChar_of_start hc
  case number hi hc h     =>
    simp only [lexNumber] at h
    split at h <;> try contradiction
    rw [←(Prod.mk.inj (Except.ok.inj h)).right]
    exact takeNumber_lt ‹_› hi hc
  case char hi h          => exact lexQuoted_lt h hi
  case string hi h        => exact lexQuoted_lt h hi
  case punct ho _ _ _ _ h =>
    obtain ⟨_, hi⟩ := ho.head
    exact lexPunct_lt h hi

-- The lexer does exactly its steps.
theorem Scan.go (h : Scan st tok? st') : lexC.go (n + 1) st acc = lexC.go n st' (tok?.toList ++ acc) := by
  cases h
  case space hi hc             => simp [lexC.go, hi, hc]
  case directive hi hb h       =>
    have hs : isSpaceChar '#' = false := rfl
    simp [lexC.go, hi, isDirectiveStart, hb, h, hs]
    rfl
  case lineComment hi          =>
    have hs : isSpaceChar '/' = false ∧ isDirectiveStart st '/' = false := ⟨rfl, by simp [isDirectiveStart]⟩
    simp [lexC.go, hi, hs, startsLineComment]
  case blockComment hi h       =>
    have hs : isSpaceChar '/' = false ∧ isDirectiveStart st '/' = false := ⟨rfl, by simp [isDirectiveStart]⟩
    simp [lexC.go, hi, hs, startsLineComment, startsBlockComment, h]
    rfl
  case ident hi hc             => simp [(Ordinary.of_start hi hc).go, hc]
  case number hi hc h          =>
    simp [(Ordinary.of_digit hi hc).go, isIdentStart_of_digit hc, hc, h]
    rfl
  case char hi h               =>
    have hc : isIdentStart '\'' = false ∧ isDigitChar '\'' = false := by decide
    simp [(Ordinary.of_ne hi (by decide) (by decide) (by decide)).go, hc, h]
    rfl
  case string hi h             =>
    have hc : isIdentStart '"' = false ∧ isDigitChar '"' = false ∧ '"' ≠ '\'' := by decide
    simp [(Ordinary.of_ne hi (by decide) (by decide) (by decide)).go, hc, h]
    rfl
  case punct ho hi hd hq hq' h => simp [ho.go, hi, hd, hq, hq', h]

theorem lexC.go_scan (h : go (bound + 1) st acc = .ok toks) (hi : st.input = c :: cs) :
    ∃ tok? st', Scan st tok? st' ∧ go bound st' (tok?.toList ++ acc) = .ok toks := by
  have hb {x : Except LexError (Token × LexState)} (hx : ∀ tok st', x = .ok (tok, st') → Scan st tok st')
      (h : (x >>= fun r => go bound r.2 (r.1 :: acc)) = .ok toks) :
      ∃ tok? st', Scan st tok? st' ∧ go bound st' (tok?.toList ++ acc) = .ok toks := by
    rcases x with _ | ⟨tok, st'⟩
    · contradiction
    · exact ⟨_, _, hx _ _ rfl, h⟩
  simp only [go, hi] at h
  split_ifs at h with hs hd hl hc hs' hn hq hq'
  · exact ⟨_, _, .space hi hs, h⟩
  · obtain ⟨hb', he⟩ : st.bol ∧ c = '#' := by simpa [isDirectiveStart] using hd
    exact hb (fun _ _ => .directive (he ▸ hi) hb') h
  · obtain ⟨_, he⟩ := startsLineComment_iff.mp hl
    exact ⟨_, _, .lineComment (hi.trans he), h⟩
  · obtain ⟨_, he⟩ := startsBlockComment_iff.mp hc
    cases hs : skipBlockComment st <;> rw [hs] at h
    case error => contradiction
    case ok    => exact ⟨_, _, .blockComment (hi.trans he) hs, h⟩
  · exact ⟨_, _, .ident hi hs', h⟩
  · exact hb (fun _ _ => .number hi hn) h
  · exact hb (fun _ _ => .char (hq ▸ hi)) h
  · exact hb (fun _ _ => .string (hq' ▸ hi)) h
  · split at h
    case h_2    => contradiction
    case h_1 hp =>
      have ho : Ordinary st c := ⟨⟨_, hi⟩, by simpa using hs, by simpa using hd, by simp [hi, hl, hc]⟩
      exact ⟨_, _, .punct ho (by simpa using hs') (by simpa using hn) hq hq' hp, h⟩

end Hcc
