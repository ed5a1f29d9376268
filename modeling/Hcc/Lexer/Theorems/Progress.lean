import Hcc.Lexer.Basic
import Mathlib.Data.List.Infix

namespace Hcc

variable {st st' : LexState} {input : List Char}

@[simp]
theorem advance_input : (advance c st).input = st.input := rfl

@[simp]
theorem advanceMany_input : (advanceMany s st).input = st.input := by
  induction s generalizing st <;> simp_all [advanceMany]

@[simp]
theorem advancePunct_input : (advancePunct s st).input = st.input := rfl

theorem takeWhileColumns_suffix : (takeWhileColumns p st).2.input <:+ st.input := by
  simp only [takeWhileColumns, List.span_eq_takeWhile_dropWhile]
  cases st.input.takeWhile p
  case nil  => exact List.suffix_rfl
  case cons => exact List.dropWhile_suffix _

-- A fragment that starts with an accepted character is not empty.
theorem takeWhileColumns_lt (h : st.input = c :: cs) (hc : p c = true) :
    (takeWhileColumns p st).2.input.length < st.input.length := by
  simp only [takeWhileColumns, List.span_eq_takeWhile_dropWhile, h, List.takeWhile_cons_of_pos hc,
    List.dropWhile_cons_of_pos hc]
  exact Nat.lt_succ_of_le (List.dropWhile_suffix _).length_le

theorem takeUntilNewline.go_suffix : (go st acc input).2.input <:+ input := by
  fun_induction go
  case case1    => exact List.suffix_rfl
  case case2    => exact List.suffix_cons ..
  case case3 hi => exact hi.trans <| List.suffix_cons ..

theorem takeUntilNewline_lt (h : st.input = c :: cs) :
    (takeUntilNewline st).2.input.length < st.input.length := by
  have hs : (takeUntilNewline.go st [] (c :: cs)).2.input <:+ cs := by
    by_cases hn : c = '\n'
    · subst hn; exact List.suffix_rfl
    · rw [takeUntilNewline.go]
      exacts [takeUntilNewline.go_suffix, hn]
  simpa [takeUntilNewline, h] using Nat.lt_succ_of_le hs.length_le

theorem skipBlockComment.go_suffix (h : go start st input = .ok st') : st'.input <:+ input := by
  fun_induction go
  case case1 => contradiction
  case case2 =>
    rw [←Except.ok.inj h, advanceMany_input]
    exact (List.suffix_cons ..).trans <| List.suffix_cons ..
  case case3 hi => exact (hi h).trans <| List.suffix_cons ..

theorem skipBlockComment_lt (h : skipBlockComment st = .ok st') (hs : startsBlockComment st.input) :
    st'.input.length < st.input.length := by
  have ⟨rest, hr⟩ := List.isPrefixOf_iff_prefix.mp hs
  simp only [skipBlockComment] at h
  split at h <;> try contradiction
  case h_2 hg =>
    have := (skipBlockComment.go_suffix hg).length_le
    rw [←Except.ok.inj h]
    simp [←hr] at *
    omega

theorem takeFractionOf_suffix : (takeFractionOf p st).2.input <:+ st.input := by
  simp only [takeFractionOf]
  split
  case h_1      => exact List.suffix_rfl
  case h_2 h    => exact h ▸ takeWhileColumns_suffix.trans (List.suffix_cons ..)
  case h_3      => exact List.suffix_rfl

theorem takeExponentSign_suffix : (takeExponentSign st).2.input <:+ st.input := by
  simp only [takeExponentSign]
  split
  case h_1 h => rw [h]; split <;> simp [h]
  case h_2   => exact List.suffix_rfl

theorem takeExponent_suffix : (takeExponent markers st).2.input <:+ st.input := by
  simp only [takeExponent]
  split
  case h_2   => exact List.suffix_rfl
  case h_1 h =>
    split <;> try exact List.suffix_rfl
    split
    · exact List.suffix_rfl
    · exact h ▸ (takeWhileColumns_suffix.trans takeExponentSign_suffix).trans (List.suffix_cons ..)

theorem takeNumber_lt (h : takeNumber st = .ok (text, cls, st')) (hd : st.input = c :: cs)
    (hc : isDigitChar c) : st'.input.length < st.input.length := by
  have hhex {mark rest} (hr : rest.length < st.input.length)
      (h : takeHexNumber mark rest st = .ok (text, cls, st')) :
      st'.input.length < st.input.length := by
    simp only [takeHexNumber] at h
    split at h <;> try contradiction
    simp only [Except.ok.injEq, Prod.mk.injEq] at h
    rw [←h.right.right]
    refine Nat.lt_of_le_of_lt (List.IsSuffix.length_le ?_) hr
    have := @takeWhileColumns_suffix (advanceMany mark { st with input := rest }) isHexDigit
    refine takeWhileColumns_suffix.trans <| takeExponent_suffix.trans <| takeFractionOf_suffix.trans ?_
    simpa using this
  simp only [takeNumber] at h
  split at h
  case h_1 hi => exact hhex (by simp only [hi, List.length_cons]; omega) h
  case h_2 hi => exact hhex (by simp only [hi, List.length_cons]; omega) h
  case h_3 =>
    simp only [takeDecimalNumber] at h
    split at h <;> try contradiction
    simp only [Except.ok.injEq, Prod.mk.injEq] at h
    rw [←h.right.right]
    refine Nat.lt_of_le_of_lt (List.IsSuffix.length_le ?_) (takeWhileColumns_lt hd hc)
    exact takeWhileColumns_suffix.trans <| takeExponent_suffix.trans takeFractionOf_suffix

theorem lexQuoted.go_suffix (h : go quote kind start st acc input = .ok (tok, st')) :
    st'.input <:+ input := by
  fun_induction go
  all_goals first | contradiction | skip
  case case3 =>
    simp only [Except.ok.injEq, Prod.mk.injEq] at h
    exact h.right ▸ List.suffix_cons ..
  case case5 hi => exact (hi h).trans <| (List.suffix_cons ..).trans (List.suffix_cons ..)
  case case7 hi => exact (hi h).trans <| List.suffix_cons ..

theorem lexQuoted_lt (h : lexQuoted quote kind st = .ok (tok, st')) (hi : st.input = c :: cs) :
    st'.input.length < st.input.length := by
  have := (lexQuoted.go_suffix h).length_le
  rw [hi] at this ⊢
  exact Nat.lt_succ_of_le this

theorem lexPunct_lt (h : lexPunct st = some (tok, st')) (hi : st.input = c :: cs) :
    st'.input.length < st.input.length := by
  have ⟨text, ht, h⟩ := Option.map_eq_some_iff.mp h
  have hl : 0 < text.toList.length := by
    have : ∀ text ∈ punctuators, 0 < text.toList.length := by decide
    exact this text (List.mem_of_find?_eq_some ht)
  simp only [Prod.mk.injEq] at h
  rw [←h.right]
  simp [hi] at *
  omega

theorem lexC.go_nil (h : st.input = []) : go bound st acc = .ok acc.reverse := by
  cases bound <;> simp [go, h]

-- The number of iterations is not limited by any bound that is at least the length of the input.
theorem lexC.go_bound (hn : st.input.length ≤ n) (hm : st.input.length ≤ m) :
    go n st acc = go m st acc := by
  induction n generalizing m st acc
  case zero =>
    have h : st.input = [] := by simpa using hn
    rw [go_nil h, go_nil h]
  case succ n hi =>
    rcases h : st.input with _ | ⟨c, cs⟩
    · rw [go_nil h, go_nil h]
    · cases m
      case zero   => simp [h] at hm
      case succ m =>
        have hr {st' : LexState} {acc} (hl : st'.input.length < st.input.length) :
            go n st' acc = go m st' acc :=
          hi (by omega) (by omega)
        have hb {x : Except LexError (Token × LexState)}
            (hx : ∀ tok st', x = .ok (tok, st') → st'.input.length < st.input.length) :
            (x >>= fun r => go n r.2 (r.1 :: acc)) = x >>= fun r => go m r.2 (r.1 :: acc) := by
          rcases x with _ | ⟨tok, st'⟩
          · rfl
          · exact hr (hx _ _ rfl)
        simp only [go, h]
        split_ifs with h₁ h₂ h₃ h₄ h₅ h₆ h₇ h₈
        · exact hr (by simp [advanceSpace, h])
        · refine hb fun tok st' he => ?_
          rw [←(Prod.mk.inj (Except.ok.inj he)).right]
          exact takeUntilNewline_lt h
        · exact hr (takeUntilNewline_lt h)
        · cases hs : skipBlockComment st
          case error => rfl
          case ok    => exact hr (skipBlockComment_lt hs (h ▸ h₄))
        · exact hr (takeWhileColumns_lt h (by simp_all [isIdentStart, isIdentChar]; tauto))
        · refine hb fun tok st' he => ?_
          simp only [lexNumber] at he
          split at he <;> try contradiction
          rw [←(Prod.mk.inj (Except.ok.inj he)).right]
          exact takeNumber_lt ‹_› h h₆
        · exact hb fun tok st' he => lexQuoted_lt he h
        · exact hb fun tok st' he => lexQuoted_lt he h
        · split
          case h_1 hp => exact hr (lexPunct_lt hp h)
          case h_2    => rfl

end Hcc
