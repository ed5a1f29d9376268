import Hcc.Driver.Theorems.Render
import Hcc.Lexer.Theorems.Masks
import Hcc.Lexer.Theorems.Positions

namespace Hcc

variable {input rest text cs x y : List Char} {kind : TokenKind} {kinds : List TokenKind} {tok : Token}
variable {st st' : LexState} {toks new acc : List Token}

section Text

theorem stripCommentNormal_other (h : c ≠ '"' ∧ c ≠ '\'') (hl : startsLineComment (c :: cs) = false)
    (hb : startsBlockComment (c :: cs) = false) : stripCommentNormal (c :: cs) = c :: stripCommentNormal cs := by
  rw [stripCommentNormal]
  · rintro rest rfl rfl
    contradiction
  · rintro rest rfl rfl
    contradiction
  · exact h.left
  · exact h.right

-- Whitespace replaces a comment.
theorem stripLineComment_space : ∀ c ∈ (stripLineComment cs).head?, isSpaceChar c := by
  induction cs
  case nil          => simp [stripLineComment]
  case cons c cs hi =>
    by_cases hc : c = '\n'
    case pos => subst hc; simp [stripLineComment, isSpaceChar]
    case neg =>
      rw [stripLineComment]
      · exact hi
      · exact hc

theorem stripBlockComment_space : ∀ c ∈ (stripBlockComment cs).head?, isSpaceChar c := by
  induction cs
  case nil          => simp [stripBlockComment]
  case cons c cs hi =>
    unfold stripBlockComment
    split
    case h_1           => nofun
    case h_2 | h_3     => simp [isSpaceChar]
    case h_4 _ _ _ _ h =>
      obtain ⟨rfl, rfl⟩ := List.cons.inj h
      exact hi

theorem isBreak_of_space (h : isSpaceChar c) : isBreak c := by
  simp [isBreak, h]

theorem masks_stripCommentNormal : Masks cs (stripCommentNormal cs) := by
  induction cs
  case nil          => exact .stop (by simp) (by simp [stripCommentNormal])
  case cons c cs hi =>
    by_cases hl : startsLineComment (c :: cs)
    case pos =>
      obtain ⟨rest, hr⟩ := startsLineComment_iff.mp hl
      rw [hr, stripCommentNormal]
      exact .stop (by simp [isBreak]) fun c hc => isBreak_of_space <| stripLineComment_space c hc
    case neg =>
      by_cases hb : startsBlockComment (c :: cs)
      case pos =>
        obtain ⟨rest, hr⟩ := startsBlockComment_iff.mp hb
        rw [hr, stripCommentNormal]
        exact .stop (by simp [isBreak]) fun c hc => isBreak_of_space <| stripBlockComment_space c hc
      case neg =>
        by_cases hq : c = '"' ∨ c = '\''
        case pos =>
          rcases hq with rfl | rfl
          all_goals exact .stop (by simp [isBreak]) (by simp [stripCommentNormal, isBreak])
        case neg =>
          rw [stripCommentNormal_other (not_or.mp hq) (by simpa using hl) (by simpa using hb)]
          exact hi.cons

end Text

section Run

-- The lexer accepts a text with tokens of these kinds, wherever the text starts.
def LexesTo (input : List Char) (kinds : List TokenKind) : Prop :=
  ∀ pos bol acc n, input.length ≤ n →
    ∃ toks, lexC.go n ⟨input, pos, bol⟩ acc = .ok (acc.reverse ++ toks) ∧ toks.map Token.kind = kinds

theorem LexesTo.nil : LexesTo [] [] :=
  fun _ _ _ _ _ => ⟨[], by simp [lexC.go_nil], rfl⟩

-- A first step does not depend on the position of the text.
theorem LexesTo.scan {kind? : Option TokenKind} (hs : ∀ pos bol, ∃ tok? st', Scan ⟨x, pos, bol⟩ tok? st' ∧
    tok?.map Token.kind = kind? ∧ st'.input = rest) (h : LexesTo rest kinds) :
    LexesTo x (kind?.toList ++ kinds) := by
  intro pos bol acc n hn
  have ⟨tok?, ⟨input, pos', bol'⟩, hs, hk, hr⟩ := hs pos bol
  have hl := hs.lt
  cases n
  case zero   => simp only at hl; omega
  case succ n =>
    rw [hs.go]
    simp only at hr hl
    subst hr
    have ⟨toks, ht, hks⟩ := h pos' bol' (tok?.toList ++ acc) n (by omega)
    refine ⟨tok?.toList ++ toks, ?_, ?_⟩
    · rw [ht]
      cases tok? <;> simp
    · rw [List.map_append, hks, ←hk]
      cases tok? <;> rfl

theorem LexesTo.space (hc : isSpaceChar c) (h : LexesTo rest kinds) : LexesTo (c :: rest) kinds :=
  @LexesTo.scan _ _ _ none (fun _ _ => ⟨none, _, .space rfl hc, rfl, rfl⟩) h

theorem stripLineComment_text (ht : '\n' ∉ text) : stripLineComment (text ++ cs) = stripLineComment cs := by
  induction text
  case nil            => rfl
  case cons c text hi =>
    have ⟨hc, ht⟩ : '\n' ≠ c ∧ '\n' ∉ text := by simpa using ht
    rw [List.cons_append, stripLineComment]
    · exact hi ht
    · exact Ne.symm hc

-- A comment is replaced by whitespace.
theorem LexesTo.lineComment (h : LexesTo (stripCommentNormal rest) kinds)
    (hc : cs = text ++ '\n' :: rest ∨ cs = text ∧ rest = []) (ht : '\n' ∉ text) :
    LexesTo (stripLineComment cs) kinds := by
  rcases hc with rfl | ⟨rfl, rfl⟩
  · rw [stripLineComment_text ht, stripLineComment]
    exact h.space rfl
  · have hn : stripLineComment (cs ++ []) = stripLineComment [] := stripLineComment_text ht
    rw [List.append_nil] at hn
    rw [hn, stripLineComment]
    simpa [stripCommentNormal] using h

theorem LexesTo.blockComment (h : LexesTo (stripCommentNormal rest) kinds) (ht : ¬['*', '/'] <:+: text) :
    LexesTo (stripBlockComment (text ++ '*' :: '/' :: rest)) kinds := by
  induction text
  case nil =>
    rw [List.nil_append, stripBlockComment]
    exact h.space rfl
  case cons c text hi =>
    have hi := hi fun hn => ht <| hn.trans <| List.suffix_cons c text |>.isInfix
    by_cases hc : c = '\n'
    case pos =>
      rw [List.cons_append, hc, stripBlockComment]
      exact hi.space rfl
    case neg =>
      rw [List.cons_append, stripBlockComment]
      · exact hi
      · rintro rest' rfl he
        cases text
        case nil  => exact absurd (List.cons.inj he).left (by decide)
        case cons =>
          obtain ⟨rfl, _⟩ := List.cons.inj he
          exact ht ⟨[], _, rfl⟩
      · exact hc

end Run

section Steps

-- A punctuator does not start a literal, and only its first character can be that of a comment.
theorem punctuators_split (h : t ∈ punctuators) : ∃ c cs, t.toList = c :: cs ∧ (c ≠ '"' ∧ c ≠ '\'') ∧
    ∀ d ∈ cs, ¬isBreak d ∧ d ≠ '/' ∧ d ≠ '"' ∧ d ≠ '\'' := by
  have hp : punctuators.all (fun t => (t.toList.head?.any fun c => c ≠ '"' && c ≠ '\'') &&
      t.toList.tail.all fun d => !isBreak d && (d ≠ '/' && (d ≠ '"' && d ≠ '\''))) := by
    decide
  have ht := List.all_eq_true.mp hp t h
  cases hc : t.toList
  case nil       => simp [hc] at ht
  case cons c cs =>
    rw [hc] at ht
    exact ⟨c, cs, rfl, by simpa using ht⟩

-- The spelling of a token is in front of a stripped text, if it is in front of the text.
theorem stripCommentNormal_token (hk : Spelled kind) (hd : ∀ text, kind ≠ .directive text)
    (hc : startsLineComment ((tokenText kind).toList ++ rest) = false ∧
      startsBlockComment ((tokenText kind).toList ++ rest) = false) :
    stripCommentNormal ((tokenText kind).toList ++ rest) = (tokenText kind).toList ++ stripCommentNormal rest := by
  cases kind
  case ident     =>
    exact stripCommentNormal_plain fun c hc => isNumberChar_plain <| by simp [isNumberChar, hk.right c hc]
  case int       => exact stripCommentNormal_plain fun c hc => isNumberChar_plain <| NumberText.chars hk c hc
  case float     => exact stripCommentNormal_plain fun c hc => isNumberChar_plain <| NumberText.chars hk c hc
  case char s    =>
    obtain ⟨body, ht, hb, _⟩ := hk
    simp [tokenText, ht, stripCommentNormal, stripQuotedLiteral_body hb]
  case string s  =>
    obtain ⟨body, ht, hb⟩ := hk
    simp [tokenText, ht, stripCommentNormal, stripQuotedLiteral_body hb]
  case punct s   =>
    obtain ⟨c, cs, he, hq, ht⟩ := punctuators_split hk
    simp only [tokenText, he, List.cons_append] at hc ⊢
    rw [stripCommentNormal_other hq hc.left hc.right, stripCommentNormal_plain fun d hd => (ht d hd).right]
  case directive => exact absurd rfl (hd _)

-- A stripped text only starts with a character that the text does not start with if that is whitespace.
theorem stripCommentNormal_head (h : d ∈ (stripCommentNormal cs).head?) (hs : isSpaceChar d = false) :
    d ∈ cs.head? := by
  cases cs
  case nil => simp [stripCommentNormal] at h
  case cons c cs =>
    by_cases hl : startsLineComment (c :: cs)
    case pos =>
      obtain ⟨rest, hr⟩ := startsLineComment_iff.mp hl
      rw [hr, stripCommentNormal] at h
      cases hs.symm.trans <| stripLineComment_space d h
    case neg =>
      by_cases hb : startsBlockComment (c :: cs)
      case pos =>
        obtain ⟨rest, hr⟩ := startsBlockComment_iff.mp hb
        rw [hr, stripCommentNormal] at h
        cases hs.symm.trans <| stripBlockComment_space d h
      case neg =>
        by_cases hq : c = '"' ∨ c = '\''
        case pos => rcases hq with rfl | rfl <;> simpa [stripCommentNormal] using h
        case neg =>
          rw [stripCommentNormal_other (not_or.mp hq) (by simpa using hl) (by simpa using hb)] at h
          exact h

theorem Scan.not_comment (h : Scan st (some tok) st') :
    startsLineComment st.input = false ∧ startsBlockComment st.input = false := by
  generalize ht : some tok = tok? at h
  have hn {c : Char} {cs : List Char} (hi : st.input = c :: cs) (hc : c ≠ '/') :
      startsLineComment st.input = false ∧ startsBlockComment st.input = false := by
    simp [startsLineComment, startsBlockComment, List.isPrefixOf, hi, Ne.symm hc]
  cases h <;> try contradiction
  case directive hi _ _ => exact hn hi (by decide)
  case ident hi hc      => exact (Ordinary.of_start hi hc).comment
  case number hi hc _   => exact (Ordinary.of_digit hi hc).comment
  case char hi _        => exact hn hi (by decide)
  case string hi _      => exact hn hi (by decide)
  case punct ho _ _ _ _ _ => exact ho.comment

theorem Ordinary.strip (h : Ordinary st c) (hi : st.input = c :: cs) (hc : c ≠ '#') (pos : SrcPos) (bol : Bool) :
    Ordinary ⟨c :: stripCommentNormal cs, pos, bol⟩ c where
  head      := ⟨_, rfl⟩
  space     := h.space
  directive := by simp [isDirectiveStart, hc]
  comment   := by
    obtain ⟨hl, hb⟩ := h.comment
    rw [hi] at hl hb
    have hn (d : Char) (hd : ['/', d].isPrefixOf (c :: cs) = false) (hs : isSpaceChar d = false) :
        ['/', d].isPrefixOf (c :: stripCommentNormal cs) = false := by
      refine Bool.eq_false_iff.mpr fun hp => ?_
      obtain ⟨rest, hp⟩ := List.isPrefixOf_iff_prefix.mp hp
      obtain ⟨rfl, hr⟩ := List.cons.inj hp
      have hm : d ∈ cs.head? := stripCommentNormal_head (by rw [←hr]; rfl) hs
      obtain ⟨cs', he⟩ : ∃ cs', cs = d :: cs' := List.head?_eq_some_iff.mp hm
      simp [he, List.isPrefixOf] at hd
    exact ⟨hn '/' hl rfl, hn '*' hb rfl⟩

theorem Scan.strip_none (h : Scan st none st') (hl : LexesTo (stripCommentNormal st'.input) kinds) :
    LexesTo (stripCommentNormal st.input) kinds := by
  generalize ht : none = tok? at h
  cases h <;> try contradiction
  case space c cs hi hc =>
    have hn : c ≠ '/' ∧ c ≠ '"' ∧ c ≠ '\'' := by
      refine ⟨?_, ?_, ?_⟩ <;> rintro rfl <;> contradiction
    have hs : stripCommentNormal ([c] ++ cs) = [c] ++ stripCommentNormal cs :=
      stripCommentNormal_plain <| List.forall_mem_singleton.mpr hn
    rw [hi]
    exact hs ▸ hl.space hc
  case lineComment cs hi =>
    obtain ⟨body, hb, h⟩ := @Consumes.takeUntilNewline_go st st.input []
    obtain ⟨body, rfl⟩ : ∃ text, body = '/' :: '/' :: text := by
      rcases h with h | ⟨h, he⟩
      · exact opener_of_append (hi.symm.trans <| h.input.trans <| List.append_assoc ..) (by simp)
      · exact opener_of_append (hi.symm.trans h.input) (by simp [he])
    have hb : '\n' ∉ body := by simpa using hb
    have hc : cs = body ++ '\n' :: (skipLineComment st).input ∨ cs = body ∧ (skipLineComment st).input = [] := by
      refine h.imp (fun h => ?_) (fun h => ⟨?_, h.right⟩)
      · simpa [skipLineComment, takeUntilNewline] using hi.symm.trans h.input
      · simpa [h.right] using hi.symm.trans h.left.input
    rw [hi, stripCommentNormal]
    exact hl.lineComment hc hb
  case blockComment cs hi h =>
    simp only [skipBlockComment, hi, List.drop_succ_cons, List.drop_zero] at h
    split at h <;> try contradiction
    case h_2 hg =>
      obtain rfl := Except.ok.inj h
      obtain ⟨body, hb, hin, _⟩ := Consumes.skipBlockComment_go hg
      rw [hi, stripCommentNormal]
      have hin : cs = body ++ ['*', '/'] ++ _ := hin
      rw [hin, List.append_assoc]
      exact hl.blockComment hb

theorem lexQuoted_strip {quote : Char} {k : String → TokenKind} (hk : ∀ text, tokenText (k text) = text)
    (hq : '\\' ≠ quote) (hs : isSpaceChar quote = false)
    (h : lexQuoted quote k st = .ok (tok, st')) (hx : x = (tokenText tok.kind).toList ++ rest)
    (pos : SrcPos) (bol : Bool) :
    ∃ sp pos', lexQuoted quote k ⟨x, pos, bol⟩ = .ok (⟨sp, tok.kind⟩, ⟨rest, pos', false⟩) := by
  have ⟨body, hb, he, hv⟩ := lexQuoted.go_body h
  have hx : x = quote :: (body ++ quote :: rest) := by simpa [he, hk] using hx
  rw [he, hx]
  exact hb.lexes hq hs hv

theorem lexPunct_strip (ho : Ordinary st c) (hq : c ≠ '\'') (hq' : c ≠ '"') (h : lexPunct st = some (tok, st'))
    (hh : ∀ s, tok.kind = .punct s → '#' ∉ s.toList)
    (hx : stripCommentNormal st.input = (tokenText tok.kind).toList ++ stripCommentNormal st'.input)
    (pos : SrcPos) (bol : Bool) :
    ∃ tok' s, Ordinary ⟨stripCommentNormal st.input, pos, bol⟩ c ∧
      lexPunct ⟨stripCommentNormal st.input, pos, bol⟩ = some (tok', s) ∧ tok'.kind = tok.kind ∧
      s.input = stripCommentNormal st'.input := by
  have ⟨text, hf, h⟩ := Option.map_eq_some_iff.mp h
  obtain ⟨rfl, rfl⟩ := Prod.mk.inj h
  have hh := hh text rfl
  have ⟨cs, hc⟩ := ho.head
  have hcm := ho.comment
  rw [hc] at hcm
  have hs : stripCommentNormal st.input = c :: stripCommentNormal cs := by
    rw [hc, stripCommentNormal_other ⟨hq', hq⟩ hcm.left hcm.right]
  have hm : Masks cs (stripCommentNormal cs) := masks_stripCommentNormal
  have hpre : ∀ t ∈ punctuators,
      t.toList.isPrefixOf (stripCommentNormal st.input) = t.toList.isPrefixOf st.input := by
    intro t ht
    have ⟨d, ds, he, _, ht⟩ := punctuators_split ht
    rw [hs, hc, he, List.isPrefixOf, List.isPrefixOf, hm.isPrefixOf fun e he => (ht e he).left]
  have hf' : punctuators.find? (·.toList.isPrefixOf (stripCommentNormal st.input)) = some text := by
    rw [←hf]
    exact List.find?_congr hpre
  have hn : c ≠ '#' := by
    rintro rfl
    have hi : text.toList.isPrefixOf st.input := by simpa using List.find?_some hf
    have ⟨d, ds, he, _⟩ := punctuators_split <| List.mem_of_find?_eq_some hf
    rw [hc, he, List.isPrefixOf] at hi
    have hd : d = '#' := by simpa using (Bool.and_eq_true_iff.mp hi).left
    exact hh <| by simp [he, hd]
  have ho' : Ordinary ⟨stripCommentNormal st.input, pos, bol⟩ c := hs ▸ ho.strip hc hn pos bol
  have hl : lexPunct ⟨stripCommentNormal st.input, pos, bol⟩ = _ := congrArg (Option.map _) hf'
  refine ⟨⟨_, _⟩, _, ho', hl, rfl, ?_⟩
  simp only [advancePunct] at hx ⊢
  rw [hx]
  exact List.drop_left' rfl

-- The lexer takes the same token from the stripped text.
theorem Scan.strip (h : Scan st (some tok) st') (hk : Spelled tok.kind) (hd : ∀ text, tok.kind ≠ .directive text)
    (hh : ∀ s, tok.kind = .punct s → '#' ∉ s.toList) (pos bol) :
    ∃ tok' s, Scan ⟨stripCommentNormal st.input, pos, bol⟩ (some tok') s ∧ tok'.kind = tok.kind ∧
      s.input = stripCommentNormal st'.input := by
  have hn := (h.spelledToken hd).nonempty
  have ht := (h.spelledToken hd).text.input
  have hx : stripCommentNormal st.input = (tokenText tok.kind).toList ++ stripCommentNormal st'.input := by
    rw [ht]
    exact stripCommentNormal_token hk hd (ht ▸ h.not_comment)
  have hhead {c : Char} {cs : List Char} (hi : st.input = c :: cs) :
      ∃ cs', stripCommentNormal st.input = c :: cs' := by
    cases he : (tokenText tok.kind).toList
    case nil       => exact absurd (String.toList_eq_nil_iff.mp he) hn
    case cons d ds =>
      rw [he] at ht hx
      obtain ⟨rfl, _⟩ := List.cons.inj <| hi.symm.trans ht
      exact ⟨_, hx⟩
  have hm : Masks st.input (stripCommentNormal st.input) := masks_stripCommentNormal
  set x := stripCommentNormal st.input with hxs
  generalize hto : some tok = tok? at h
  cases h <;> try contradiction
  case directive hi hb h =>
    cases hto
    cases h
    exact absurd rfl (hd _)
  case ident hi hc =>
    cases hto
    obtain ⟨cs', hc'⟩ := hhead hi
    rcases hw : takeIdent st with ⟨text, s⟩
    obtain ⟨t, hw', _⟩ := (takeWhileColumns_masks (t := ⟨x, pos, bol⟩) hm (.of_all rfl)).get hw
    obtain ⟨_, _, hr⟩ := takeWhileColumns_spec hw'
    have hw' : takeIdent ⟨x, pos, bol⟩ = (text, t) := hw'
    simp only [lexIdent, hw, tokenText, String.toList_ofList] at hx
    refine ⟨_, _, .ident hc' hc, ?_, ?_⟩ <;> simp only [lexIdent, hw, hw']
    exact List.append_cancel_left <| hr.symm.trans hx
  case number hi hc h =>
    cases hto
    obtain ⟨cs', hc'⟩ := hhead hi
    simp only [lexNumber] at h
    split at h <;> try contradiction
    case h_2 text cls s hw =>
      cases h
      obtain ⟨t, hw'⟩ := takeNumber_masks (t := ⟨x, pos, bol⟩) hm hw
      have hr := (Consumes.takeNumber hw').input
      refine ⟨_, t, .number hc' hc (by simp only [lexNumber, hw']; rfl), ?_, ?_⟩
      · cases cls <;> rfl
      · refine List.append_cancel_left <| hr.symm.trans ?_
        cases cls <;> simpa [tokenText] using hx
  case char hi h =>
    cases hto
    obtain ⟨cs', hc'⟩ := hhead hi
    obtain ⟨_, _, hl⟩ := lexQuoted_strip (fun _ => rfl) (by decide) (by decide) h hx pos bol
    exact ⟨_, _, .char hc' hl, rfl, rfl⟩
  case string hi h =>
    cases hto
    obtain ⟨cs', hc'⟩ := hhead hi
    obtain ⟨_, _, hl⟩ := lexQuoted_strip (fun _ => rfl) (by decide) (by decide) h hx pos bol
    exact ⟨_, _, .string hc' hl, rfl, rfl⟩
  case punct ho hi hdig hq hq' h =>
    cases hto
    obtain ⟨_, _, ho', hl, hk, hr⟩ := lexPunct_strip ho hq hq' h hh hx pos bol
    exact ⟨_, _, .punct ho' hi hdig hq hq' hl, hk, hr⟩

end Steps

section Run

theorem takeUntilNewline.go_acc {front : List Char} (h : c ∈ front) : c ∈ (go st front cs).1 := by
  fun_induction go st front cs
  case case1    => simpa using h
  case case2    => simpa using h
  case case3 hi => exact hi <| .tail _ h

theorem Scan.hash {text : String} (h : Scan st (some tok) st') (hk : tok.kind = .directive text) :
    '#' ∈ (tokenText tok.kind).toList := by
  generalize ht : some tok = tok? at h
  cases h <;> try contradiction
  all_goals cases ht
  case directive hi _ h =>
    obtain ⟨rfl, _⟩ := Prod.mk.inj <| Except.ok.inj h
    simp only [tokenText, String.toList_ofList, hi]
    rw [takeUntilNewline.go]
    · exact takeUntilNewline.go_acc <| .head _
    · decide
  case ident => cases hk
  case number h =>
    simp only [lexNumber] at h
    split at h <;> try contradiction
    case h_2 cls _ _ =>
      cases h
      cases cls <;> cases hk
  case char h | string h =>
    obtain ⟨_, _, he, _⟩ := lexQuoted.go_body h
    cases he.symm.trans hk
  case punct h =>
    obtain ⟨_, _, he⟩ := Option.map_eq_some_iff.mp h
    cases he
    cases hk

-- A token with a hash is a literal.
def HashFree (toks : List Token) : Prop :=
  ∀ tok ∈ toks, '#' ∈ (tokenText tok.kind).toList → ∃ s, tok.kind = .char s ∨ tok.kind = .string s

theorem lexC.go_strip (h : go bound st acc = .ok toks) (hb : st.input.length ≤ bound)
    (hs : ∀ tok ∈ toks, Spelled tok.kind) (hh : HashFree toks) :
    ∃ new, toks = acc.reverse ++ new ∧ LexesTo (stripCommentNormal st.input) (new.map Token.kind) := by
  induction bound generalizing st acc
  case zero =>
    have hi : st.input = [] := by simpa using hb
    exact ⟨[], by simpa using (Except.ok.inj h).symm, by simpa [hi, stripCommentNormal] using LexesTo.nil⟩
  case succ bound hi =>
    rcases hc : st.input with _ | ⟨c, cs⟩
    · rw [go_nil hc] at h
      exact ⟨[], by simpa using (Except.ok.inj h).symm, by simpa [stripCommentNormal] using LexesTo.nil⟩
    · obtain ⟨tok?, st', hsc, h⟩ := go_scan h hc
      obtain ⟨new, he, hl⟩ := hi h (by have := hsc.lt; omega)
      rw [←hc]
      cases tok?
      case none => exact ⟨new, he, hsc.strip_none hl⟩
      case some tok =>
        have hm : tok ∈ toks := by simp [he]
        have hd (text) (hk : tok.kind = .directive text) : False := by
          obtain ⟨s, hs⟩ := hh tok hm <| hsc.hash hk
          rw [hk] at hs
          cases hs <;> contradiction
        have hp (s) (hk : tok.kind = .punct s) : '#' ∉ s.toList := by
          intro hmem
          obtain ⟨s', hs⟩ := hh tok hm <| by rwa [hk, tokenText]
          rw [hk] at hs
          cases hs <;> contradiction
        refine ⟨tok :: new, by simpa using he, ?_⟩
        refine @LexesTo.scan _ _ _ (some tok.kind) (fun pos bol => ?_) hl
        obtain ⟨tok', s, hs', hk, hr⟩ := hsc.strip (hs tok hm) hd hp pos bol
        exact ⟨some tok', s, hs', congrArg some hk, hr⟩

theorem lexC_stripComments {source : String} (h : lexC source = .ok toks) (hh : HashFree toks) :
    ∃ stripped, lexC (.ofList (stripComments source.toList)) = .ok stripped ∧
      stripped.map Token.kind = toks.map Token.kind := by
  have ⟨new, he, hl⟩ := lexC.go_strip h le_rfl (lexC_spelled h) hh
  obtain rfl : toks = new := he
  have ⟨stripped, hs, hk⟩ := hl ⟨1, 1⟩ true [] _ le_rfl
  refine ⟨stripped, ?_, hk⟩
  rw [lexC]
  simpa [stripComments] using hs

theorem HashFree.of_kinds {toks' : List Token} (h : HashFree toks) (hk : toks'.map Token.kind = toks.map Token.kind) :
    HashFree toks' := by
  intro tok hm
  have hm : tok.kind ∈ toks.map Token.kind := hk ▸ List.mem_map_of_mem hm
  have ⟨tok', hm, he⟩ := List.mem_map.mp hm
  exact he ▸ h tok' hm

-- The comments of a program can be removed before it is lexed, even more than once.
theorem stripComments_agrees {source : String} (h : lexC source = .ok toks) (hh : HashFree toks) :
    ∃ once, lexC (.ofList (stripComments source.toList)) = .ok once ∧ once.map Token.kind = toks.map Token.kind ∧
    ∃ twice, lexC (.ofList (stripComments (stripComments source.toList))) = .ok twice ∧
      twice.map Token.kind = once.map Token.kind := by
  have ⟨once, ho, hk⟩ := lexC_stripComments h hh
  have ⟨twice, ht, hk'⟩ := lexC_stripComments ho <| hh.of_kinds hk
  exact ⟨once, ho, hk, twice, by simpa using ht, hk'⟩

theorem stripComments_agrees_sum :
    ∃ once, lexC (.ofList (stripComments "a/* \" */+ b".toList)) = .ok once ∧
      once.map Token.kind = [.ident "a", .punct "+", .ident "b"] := by
  have hl : lexC "a/* \" */+ b" = .ok [⟨⟨⟨1, 1⟩, ⟨1, 2⟩⟩, .ident "a"⟩, ⟨⟨⟨1, 9⟩, ⟨1, 10⟩⟩, .punct "+"⟩,
      ⟨⟨⟨1, 11⟩, ⟨1, 12⟩⟩, .ident "b"⟩] := rfl
  have ⟨once, ho, hk, _⟩ := stripComments_agrees hl <| by simp [HashFree, tokenText]
  exact ⟨once, ho, hk⟩

end Run
end Hcc
