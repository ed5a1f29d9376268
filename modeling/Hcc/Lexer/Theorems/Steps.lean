import Hcc.Lexer.Theorems.Progress

namespace Hcc

-- One step of the lexer, with the token that it emits.
inductive LexStep (st : LexState) : Option Token → LexState → Prop
  | space : st.input = c :: cs → LexStep st none (advanceSpace c { st with input := cs })
  | directive : st.bol → lexDirective st = .ok (tok, st') → LexStep st tok st'
  | lineComment : LexStep st none (skipLineComment st)
  | blockComment : skipBlockComment st = .ok st' → LexStep st none st'
  | ident : isIdentStart c → st.input = c :: cs → LexStep st (lexIdent st).1 (lexIdent st).2
  | number : isDigitChar c → st.input = c :: cs → lexNumber st = .ok (tok, st') → LexStep st tok st'
  | char : lexQuoted '\'' .char st = .ok (tok, st') → LexStep st tok st'
  | string : lexQuoted '"' .string st = .ok (tok, st') → LexStep st tok st'
  | punct : lexPunct st = some (tok, st') → LexStep st tok st'

-- The remaining input is on the line that has been started.
structure LexState.Quiet (st : LexState) : Prop where
  bol   : st.bol = false
  input : '\n' ∉ st.input

variable {st st' : LexState} {input cs : List Char} {tok : Token}

section Run

variable {toks acc : List Token}

theorem lexC.go_step (h : go (bound + 1) st acc = .ok toks) (hi : st.input = c :: cs) :
    ∃ tok st', LexStep st tok st' ∧ go bound st' (tok.toList ++ acc) = .ok toks := by
  have hb {x : Except LexError (Token × LexState)} (hx : ∀ tok st', x = .ok (tok, st') → LexStep st tok st')
      (h : (x >>= fun r => go bound r.2 (r.1 :: acc)) = .ok toks) :
      ∃ tok st', LexStep st tok st' ∧ go bound st' (tok.toList ++ acc) = .ok toks := by
    rcases x with _ | ⟨tok, st'⟩
    · contradiction
    · exact ⟨_, _, hx _ _ rfl, h⟩
  simp only [go, hi] at h
  split_ifs at h with _ hd
  · exact ⟨_, _, .space hi, h⟩
  · exact hb (fun _ _ => .directive (by simp_all [isDirectiveStart])) h
  · exact ⟨_, _, .lineComment, h⟩
  · cases hs : skipBlockComment st <;> rw [hs] at h
    case error => contradiction
    case ok    => exact ⟨_, _, .blockComment hs, h⟩
  · exact ⟨_, _, .ident ‹_› hi, h⟩
  · exact hb (fun _ _ => .number ‹_› hi) h
  · exact hb (fun _ _ => .char) h
  · exact hb (fun _ _ => .string) h
  · split at h
    case h_1 hp => exact ⟨_, _, .punct hp, h⟩
    case h_2    => contradiction

-- An invariant of the steps holds in every state of a run.
theorem lexC.go_all {I : LexState → Prop} {P : Token → Prop}
    (hs : ∀ {st tok st'}, I st → LexStep st tok st' → I st' ∧ ∀ t ∈ tok, P t) (hi : I st)
    (h : go bound st acc = .ok toks) : ∃ new, toks = acc.reverse ++ new ∧ ∀ t ∈ new, P t := by
  induction bound generalizing st acc
  case zero => exact ⟨[], by simpa using (Except.ok.inj h).symm, nofun⟩
  case succ bound ih =>
    rcases hc : st.input with _ | ⟨c, cs⟩
    · rw [go_nil hc] at h
      exact ⟨[], by simpa using (Except.ok.inj h).symm, nofun⟩
    · have ⟨tok, st', hl, h⟩ := go_step h hc
      have ⟨hi, ht⟩ := hs hi hl
      have ⟨new, he, hn⟩ := ih hi h
      refine ⟨tok.toList ++ new, ?_, fun t hm => (List.mem_append.mp hm).elim ?_ (hn t)⟩
      · cases tok <;> simp [he]
      · exact fun hm => ht t <| Option.mem_toList.mp hm

end Run

section Quiet

theorem LexState.Quiet.of_suffix (h : st.Quiet) (hb : st'.bol = false) (hs : st'.input <:+ st.input) : st'.Quiet :=
  ⟨hb, fun hm => h.input <| hs.subset hm⟩

theorem LexState.Quiet.tail (h : st.Quiet) (hi : st.input = c :: cs) : c ≠ '\n' ∧ Quiet { st with input := cs } := by
  have hn := hi ▸ h.input
  simp only [List.mem_cons, not_or] at hn
  exact ⟨Ne.symm hn.left, h.bol, hn.right⟩

theorem LexState.Quiet.advance (h : st.Quiet) (hc : c ≠ '\n') : (advance c st).Quiet :=
  ⟨by simp [Hcc.advance, nextBol, h.bol, hc], h.input⟩

theorem LexState.Quiet.advanceMany (h : st.Quiet) (hs : ∀ c ∈ s, c ≠ '\n') : (advanceMany s st).Quiet := by
  induction s generalizing st
  case nil            => exact h
  case cons c cs hi =>
    have ⟨hc, hs⟩ := List.forall_mem_cons.mp hs
    exact hi (h.advance hc) hs

theorem LexState.Quiet.takeWhileColumns (h : st.Quiet) : (takeWhileColumns p st).2.Quiet := by
  refine h.of_suffix ?_ takeWhileColumns_suffix
  simp only [Hcc.takeWhileColumns]
  split
  case h_1 => exact h.bol
  case h_2 => rfl

theorem LexState.Quiet.takeUntilNewline (h : st.Quiet) : (takeUntilNewline st).2.Quiet := by
  have hg {cur acc input} (hc : cur.bol = false) (hi : '\n' ∉ input) : (takeUntilNewline.go cur acc input).2.bol = false := by
    fun_induction takeUntilNewline.go
    case case1 => exact hc
    case case2 => simp at hi
    case case3 cur acc c cs hn ih =>
      simp only [List.mem_cons, not_or] at hi
      exact ih (by simp [Hcc.advance, nextBol, hc, mt hn id]) hi.right
  exact h.of_suffix (hg h.bol h.input) takeUntilNewline.go_suffix

theorem LexState.Quiet.skipBlockComment (h : st.Quiet) (hs : skipBlockComment st = .ok st') : st'.Quiet := by
  simp only [Hcc.skipBlockComment] at hs
  split at hs <;> try contradiction
  case h_2 hg =>
    obtain rfl := Except.ok.inj hs
    exact h.of_suffix h.bol <| (skipBlockComment.go_suffix hg).trans <| List.drop_suffix ..

theorem LexState.Quiet.takeFractionOf (h : st.Quiet) : (takeFractionOf p st).2.Quiet := by
  simp only [Hcc.takeFractionOf]
  split
  case h_1    => exact h
  case h_2 hi =>
    obtain ⟨hc, ht⟩ := h.tail hi
    exact (ht.advance hc).takeWhileColumns
  case h_3    => exact h

theorem LexState.Quiet.takeExponentSign (h : st.Quiet) : (takeExponentSign st).2.Quiet := by
  simp only [Hcc.takeExponentSign]
  split
  case h_2    => exact h
  case h_1 hi =>
    split
    case isFalse => exact h
    case isTrue  =>
      obtain ⟨hc, ht⟩ := h.tail hi
      exact ht.advance hc

theorem LexState.Quiet.takeExponent (h : st.Quiet) : (takeExponent markers st).2.Quiet := by
  simp only [Hcc.takeExponent]
  split
  case h_2    => exact h
  case h_1 hi =>
    split <;> try exact h
    split
    case isTrue  => exact h
    case isFalse =>
      obtain ⟨hc, ht⟩ := h.tail hi
      exact (ht.advance hc).takeExponentSign.takeWhileColumns

theorem LexState.Quiet.takeNumber (h : st.Quiet) (hn : takeNumber st = .ok (text, cls, st')) : st'.Quiet := by
  have hhex {mark rest} (hm : ∀ c ∈ mark, c ≠ '\n') (hr : rest <:+ st.input)
      (hn : takeHexNumber mark rest st = .ok (text, cls, st')) : st'.Quiet := by
    simp only [takeHexNumber] at hn
    split at hn <;> try contradiction
    obtain ⟨_, _, rfl⟩ := by simpa using hn
    have ht : LexState.Quiet { st with input := rest } := h.of_suffix h.bol hr
    exact (ht.advanceMany hm).takeWhileColumns.takeFractionOf.takeExponent.takeWhileColumns
  simp only [Hcc.takeNumber] at hn
  split at hn
  case h_1 hi => exact hhex (by simp) (by simp [hi, List.suffix_cons_iff]) hn
  case h_2 hi => exact hhex (by simp) (by simp [hi, List.suffix_cons_iff]) hn
  case h_3    =>
    simp only [takeDecimalNumber] at hn
    split at hn <;> try contradiction
    obtain ⟨_, _, rfl⟩ := by simpa using hn
    exact h.takeWhileColumns.takeFractionOf.takeExponent.takeWhileColumns

theorem lexQuoted.go_kind (h : go quote kind start st acc input = .ok (tok, st')) : ∃ text, tok.kind = kind text := by
  fun_induction go
  all_goals first | contradiction | skip
  case case3    => exact (Prod.mk.inj <| Except.ok.inj h).left ▸ ⟨_, rfl⟩
  case case5 hi => exact hi h
  case case7 hi => exact hi h

theorem LexState.Quiet.lexQuoted (h : st.Quiet) (hq : lexQuoted quote kind st = .ok (tok, st')) (hn : quote ≠ '\n') :
    st'.Quiet := by
  have hg {start cur acc input} (hc : cur.bol = false) (hi : '\n' ∉ input)
      (h : lexQuoted.go quote kind start cur acc input = .ok (tok, st')) : st'.bol = false := by
    fun_induction lexQuoted.go
    all_goals try simp only [List.mem_cons, not_or] at hi
    all_goals first | contradiction | skip
    case case3 =>
      obtain ⟨_, rfl⟩ := by simpa using h
      show nextBol _ _ = false
      simp [nextBol, hc, hn]
    case case5 ih => exact ih (by simp [Hcc.advance, nextBol, hc, Ne.symm hi.left, Ne.symm hi.right.left]) hi.right.right h
    case case7 ih => exact ih (by simp [Hcc.advance, nextBol, hc, Ne.symm hi.left]) hi.right h
  refine h.of_suffix (hg (h.advance hn).bol (fun hm => h.input <| List.mem_of_mem_drop hm) hq) ?_
  exact (lexQuoted.go_suffix hq).trans <| List.drop_suffix ..

theorem LexState.Quiet.lexPunct (h : st.Quiet) (hp : lexPunct st = some (tok, st')) : st'.Quiet := by
  have ⟨text, _, hp⟩ := Option.map_eq_some_iff.mp hp
  obtain ⟨_, rfl⟩ := by simpa using hp
  exact h.of_suffix rfl <| List.drop_suffix ..

end Quiet

section Directives

-- Only a line that starts with `#` is a directive. It ends with the line.
theorem takeUntilNewline.go_newline (ha : '\n' ∉ acc) : '\n' ∉ (go st acc input).1 := by
  fun_induction go
  case case1 => simpa using ha
  case case2 => simpa using ha
  case case3 c _ hn hi => exact hi <| by simp [ha, Ne.symm hn]

theorem LexStep.directive_kind (h : LexStep st tok? st') (ht : tok ∈ tok?) (hk : tok.kind = .directive text) :
    st.bol ∧ '\n' ∉ text.toList := by
  cases h
  case space | lineComment | blockComment => contradiction
  case directive hb h =>
    obtain ⟨rfl, _⟩ := by simpa [lexDirective, Except.ok.injEq] using h
    obtain rfl := Option.mem_some.mp ht
    obtain rfl := TokenKind.directive.inj hk
    exact ⟨hb, by simpa [takeUntilNewline] using takeUntilNewline.go_newline (by simp)⟩
  case ident =>
    obtain rfl := Option.mem_some.mp ht
    simp [lexIdent] at hk
  case number h =>
    obtain rfl := Option.mem_some.mp ht
    simp only [lexNumber] at h
    split at h <;> try contradiction
    obtain ⟨rfl, _⟩ := by simpa using h
    simp only at hk
    split at hk <;> contradiction
  case char h | string h =>
    obtain rfl := Option.mem_some.mp ht
    obtain ⟨_, hq⟩ := lexQuoted.go_kind h
    cases hk.symm.trans hq
  case punct h =>
    obtain rfl := Option.mem_some.mp ht
    obtain ⟨_, _, h⟩ := Option.map_eq_some_iff.mp h
    obtain ⟨rfl, _⟩ := by simpa using h
    contradiction

theorem LexStep.quiet (hs : st.Quiet) (h : LexStep st tok? st') : st'.Quiet := by
  cases h
  case space h =>
    obtain ⟨hc, ht⟩ := hs.tail h
    exact ⟨by simp [advanceSpace, ht.bol, hc], ht.input⟩
  case directive hb _    => cases hs.bol.symm.trans hb
  case lineComment       => exact hs.takeUntilNewline
  case blockComment h    => exact hs.skipBlockComment h
  case ident             => exact hs.takeWhileColumns
  case number h          =>
    simp only [lexNumber] at h
    split at h <;> try contradiction
    obtain ⟨_, rfl⟩ := by simpa using h
    exact hs.takeNumber ‹_›
  case char h | string h => exact hs.lexQuoted h (by decide)
  case punct h           => exact hs.lexPunct h

theorem lexC_directive_newline (h : lexC source = .ok toks) (ht : tok ∈ toks) (hk : tok.kind = .directive text) :
    '\n' ∉ text.toList := by
  have ⟨new, he, hn⟩ := lexC.go_all (I := fun _ => True)
    (P := fun tok => ∀ text, tok.kind = .directive text → '\n' ∉ text.toList)
    (fun _ hs => ⟨trivial, fun _ ht _ hk => (hs.directive_kind ht hk).right⟩) trivial h
  exact hn tok (by simpa [he] using ht) text hk

theorem LexState.Quiet.lexC_go (hs : st.Quiet) (h : lexC.go bound st acc = .ok toks) :
    ∃ new, toks = acc.reverse ++ new ∧ ∀ tok ∈ new, ∀ text, tok.kind ≠ .directive text :=
  lexC.go_all (P := fun tok => ∀ text, tok.kind ≠ .directive text) (fun hs h => ⟨h.quiet hs, fun _ ht _ hk =>
    nomatch hs.bol.symm.trans (h.directive_kind ht hk).left⟩) hs h

-- A line that starts with a word has no directive.
theorem lexC_go_word {cs : List Char} (hc : isIdentStart c) (hn : '\n' ∉ c :: cs)
    (h : lexC.go (bound + 1) ⟨c :: cs, pos, true⟩ [] = .ok toks) :
    ∃ word new, toks = word :: new ∧ ∀ tok ∈ new, ∀ text, tok.kind ≠ .directive text := by
  have hs : isSpaceChar c = false ∧ c ≠ '#' ∧ c ≠ '/' := by
    refine ⟨Bool.eq_false_iff.mpr fun hs => ?_, ?_, ?_⟩
    · simp only [isSpaceChar, Bool.or_eq_true, decide_eq_true_eq] at hs
      rcases hs with ((((rfl | rfl) | rfl) | rfl) | rfl) | rfl <;> contradiction
    all_goals rintro rfl; contradiction
  have hi : isIdentChar c := by
    simp only [isIdentStart, isIdentChar, Bool.or_eq_true] at hc ⊢
    tauto
  have hq : (lexIdent ⟨c :: cs, pos, true⟩).2.Quiet := by
    refine ⟨?_, fun hm => hn <| takeWhileColumns_suffix.subset hm⟩
    simp [lexIdent, takeIdent, takeWhileColumns, List.span_eq_takeWhile_dropWhile, hi, advancePunct]
  have h : lexC.go bound (lexIdent ⟨c :: cs, pos, true⟩).2 [(lexIdent ⟨c :: cs, pos, true⟩).1] = .ok toks := by
    simpa [lexC.go, hs, isDirectiveStart, startsLineComment, startsBlockComment, hc, Ne.symm hs.right.right] using h
  obtain ⟨new, he, hn⟩ := hq.lexC_go h
  exact ⟨_, new, he, hn⟩

end Directives
end Hcc
