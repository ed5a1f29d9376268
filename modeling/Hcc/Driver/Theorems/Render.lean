import Hcc.Driver.Basic
import Hcc.Preprocessor.Theorems.Spelling

namespace Hcc

variable {text : List Char} {toks out : List Token}

section Text

def renderedText (toks : List Token) : List Char :=
  toks.flatMap fun tok => (tokenText tok.kind).toList ++ [' ']

theorem renderTokens_toList : (renderTokens toks).toList = renderedText toks ++ ['\n'] := by
  induction toks
  case nil  => rfl
  case cons => simp_all [renderTokens, renderToken, renderedText]

theorem renderedText_cons {tok : Token} :
    renderedText (tok :: toks) ++ text = (tokenText tok.kind).toList ++ ' ' :: (renderedText toks ++ text) := by
  simp [renderedText]

-- The only newline is the last character, and it follows a space.
theorem spliceContinuations_text (h : '\n' ∉ text) :
    spliceContinuations (text ++ [' ', '\n']) = text ++ [' ', '\n'] := by
  induction text
  case nil => rfl
  case cons c cs hi =>
    have hi := hi (List.not_mem_of_not_mem_cons h)
    have ⟨hc, hn⟩ : '\n' ≠ c ∧ '\n' ∉ cs := by simpa using h
    rcases cs with _ | ⟨d, cs⟩
    · by_cases hb : c = '\\'
      · subst hb; rfl
      · rw [List.cons_append, spliceContinuations, hi]
        all_goals simp_all
    · have ⟨hd, hn⟩ : '\n' ≠ d ∧ '\n' ∉ cs := by simpa using hn
      have he : (d :: cs) ++ [' ', '\n'] = d :: (cs ++ [' ', '\n']) := rfl
      rw [List.cons_append, spliceContinuations, hi]
      · rintro e rest rfl h
        rcases cs with _ | ⟨e', cs⟩
        all_goals simp_all
      · rintro rest rfl h
        simp_all

theorem stripCommentNormal_plain (h : ∀ c ∈ text, c ≠ '/' ∧ c ≠ '"' ∧ c ≠ '\'') :
    stripCommentNormal (text ++ rest) = text ++ stripCommentNormal rest := by
  induction text
  case nil            => rfl
  case cons c cs hi =>
    have ⟨⟨hs, hq, hq'⟩, h⟩ := List.forall_mem_cons.mp h
    rw [List.cons_append, stripCommentNormal, hi h, List.cons_append]
    all_goals simp_all

theorem stripQuotedLiteral_body (h : LiteralBody quote body) (hq : '\\' ≠ quote) :
    stripQuotedLiteral quote (body ++ quote :: rest) = body ++ quote :: stripCommentNormal rest := by
  induction h
  case nil =>
    rw [List.nil_append, stripQuotedLiteral, if_pos rfl, List.nil_append]
    exact fun _ _ h _ => hq h.symm
  case char hc he _ _ hi =>
    rw [List.cons_append, stripQuotedLiteral, if_neg hc, hi, List.cons_append]
    exact fun _ _ h _ => he h
  case escape hi =>
    rw [List.cons_append, List.cons_append, stripQuotedLiteral, hi, List.cons_append, List.cons_append]

theorem stripCommentNormal_space : stripCommentNormal (' ' :: rest) = ' ' :: stripCommentNormal rest := by
  rw [stripCommentNormal]
  all_goals simp

theorem isNumberChar_plain (h : isNumberChar c) : c ≠ '/' ∧ c ≠ '"' ∧ c ≠ '\'' := by
  refine ⟨?_, ?_, ?_⟩
  all_goals rintro rfl; contradiction

theorem stripCommentNormal_punct (h : s ∈ punctuators) :
    stripCommentNormal (s.toList ++ ' ' :: rest) = s.toList ++ stripCommentNormal (' ' :: rest) := by
  have hp : punctuators.all fun s =>
      s.toList.all (fun c => c ≠ '/' && c ≠ '"' && c ≠ '\'') || s = "/" || s = "/=" := by
    decide
  have hp : ∀ s ∈ punctuators, (∀ c ∈ s.toList, c ≠ '/' ∧ c ≠ '"' ∧ c ≠ '\'') ∨ s = "/" ∨ s = "/=" := by
    simpa [and_assoc, or_assoc] using hp
  rcases hp s h with hp | rfl | rfl
  · exact stripCommentNormal_plain hp
  · rfl
  · rfl

-- Comments are neither in a token nor do they start at its end.
theorem stripCommentNormal_spelled (hs : Spelled kind) (hd : ∀ text, kind ≠ .directive text) :
    stripCommentNormal ((tokenText kind).toList ++ ' ' :: rest) =
      (tokenText kind).toList ++ stripCommentNormal (' ' :: rest) := by
  cases kind
  case ident     => exact stripCommentNormal_plain fun c hc => isNumberChar_plain <| by simp [isNumberChar, hs.right c hc]
  case int       => exact stripCommentNormal_plain fun c hc => isNumberChar_plain <| NumberText.chars hs c hc
  case float     => exact stripCommentNormal_plain fun c hc => isNumberChar_plain <| NumberText.chars hs c hc
  case char s    =>
    obtain ⟨body, ht, hb, _⟩ := hs
    rw [tokenText, ht, List.cons_append, List.append_assoc, stripCommentNormal, List.singleton_append,
      stripQuotedLiteral_body hb (by decide)]
    simp
  case string s  =>
    obtain ⟨body, ht, hb⟩ := hs
    rw [tokenText, ht, List.cons_append, List.append_assoc, stripCommentNormal, List.singleton_append,
      stripQuotedLiteral_body hb (by decide)]
    simp
  case punct     => exact stripCommentNormal_punct hs
  case directive => exact absurd rfl (hd _)

theorem stripComments_rendered (hs : ∀ tok ∈ toks, Spelled tok.kind)
    (hd : ∀ tok ∈ toks, ∀ text, tok.kind ≠ .directive text) :
    stripComments (renderedText toks ++ ['\n']) = renderedText toks ++ ['\n'] := by
  induction toks
  case nil               => rfl
  case cons tok toks hi =>
    have ⟨hs, hss⟩ := List.forall_mem_cons.mp hs
    have ⟨hd, hds⟩ := List.forall_mem_cons.mp hd
    rw [renderedText_cons, stripComments, stripCommentNormal_spelled hs hd, stripCommentNormal_space]
    exact congrArg _ <| congrArg _ <| hi hss hds

theorem lexC_go_space {rest : List Char} :
    lexC.go (n + 1) ⟨' ' :: rest, pos, bol⟩ acc = lexC.go n ⟨rest, nextPos ' ' pos, bol⟩ acc := by
  simp [lexC.go, isSpaceChar, advanceSpace]

-- The tokens are lexed one after the other, each with the space behind it.
theorem lexC_go_rendered (hs : ∀ tok ∈ toks, Spelled tok.kind) (hd : ∀ tok ∈ toks, ∀ text, tok.kind ≠ .directive text)
    (hb : bol = true → ∀ tok ∈ toks.head?, '#' ∉ (tokenText tok.kind).toList.head?) (n) :
    ∃ toks', lexC.go (2 * toks.length + n + 1) ⟨renderedText toks ++ ['\n'], pos, bol⟩ acc = .ok (acc.reverse ++ toks') ∧
      toks'.map Token.kind = toks.map Token.kind := by
  induction toks generalizing pos bol acc
  case nil =>
    refine ⟨[], ?_, rfl⟩
    simp [renderedText, lexC.go, isSpaceChar, lexC.go_nil, advanceSpace]
  case cons tok toks hi =>
    obtain ⟨hs, hss⟩ := List.forall_mem_cons.mp hs
    obtain ⟨hd, hds⟩ := List.forall_mem_cons.mp hd
    obtain ⟨sp, pos', hl⟩ : LexesBack tok.kind pos bol (renderedText toks ++ ['\n']) :=
      hs.lexesBack hd fun h => hb h tok rfl
    obtain ⟨toks', hg, hk⟩ : ∃ toks', lexC.go (2 * toks.length + n + 1) ⟨renderedText toks ++ ['\n'], nextPos ' ' pos', false⟩
        (⟨sp, tok.kind⟩ :: acc) = .ok ((⟨sp, tok.kind⟩ :: acc).reverse ++ toks') ∧ toks'.map Token.kind = toks.map Token.kind :=
      hi hss hds fun h => absurd h Bool.false_ne_true
    refine ⟨⟨sp, tok.kind⟩ :: toks', ?_, by simp [hk]⟩
    have hn : 2 * (tok :: toks).length + n + 1 = (2 * toks.length + n + 1 + 1) + 1 := by
      rw [List.length_cons]
      omega
    rw [renderedText_cons, hn, hl, lexC_go_space, hg]
    simp

theorem renderedText_newline (hn : ∀ tok ∈ toks, '\n' ∉ (tokenText tok.kind).toList) : '\n' ∉ renderedText toks := by
  simpa [renderedText] using hn

theorem spliceContinuations_rendered (hn : ∀ tok ∈ toks, '\n' ∉ (tokenText tok.kind).toList) :
    spliceContinuations (renderedText toks ++ ['\n']) = renderedText toks ++ ['\n'] := by
  rcases List.eq_nil_or_concat toks with rfl | ⟨toks, tok, rfl⟩
  · rfl
  · have hn : '\n' ∉ renderedText toks ++ (tokenText tok.kind).toList := by
      simpa [renderedText] using renderedText_newline hn
    have ht : renderedText (toks.concat tok) ++ ['\n'] = (renderedText toks ++ (tokenText tok.kind).toList) ++ [' ', '\n'] := by
      simp [renderedText]
    rw [ht, spliceContinuations_text hn]

end Text

-- The output for a preprocessed program is lexed to tokens with the same spelling, if no token is spelled
-- with a newline.
theorem relexes_renderTokens (hp : Outputs source out) (hd : ∀ tok ∈ out, tok.kind.isDirective = false)
    (hh : ∀ tok ∈ out.head?, '#' ∉ (tokenText tok.kind).toList.head?) (hn : ∀ tok ∈ out, '\n' ∉ (tokenText tok.kind).toList) :
    Relexes out := by
  have ⟨toks, fuel, hx, hp⟩ := hp
  have hd tok (ht : tok ∈ out) text : tok.kind ≠ .directive text := fun hk => by
    have := hk ▸ hd tok ht
    contradiction
  have ⟨text, hl⟩ : ∃ text, lexC text = .ok toks := by
    simp only [lexPlainSource] at hx
    split at hx
    case h_1    => contradiction
    case h_2 hl => exact ⟨_, Except.ok.inj hx ▸ hl⟩
  have hs tok (ht : tok ∈ out) : Spelled tok.kind := preprocess_respelled hl hp tok ht <| hn tok ht
  have ⟨toks', hg, hk⟩ : ∃ toks', lexC.go (2 * out.length + (renderTokens out).toList.length + 1)
      ⟨renderedText out ++ ['\n'], ⟨1, 1⟩, true⟩ [] = .ok ([].reverse ++ toks') ∧ toks'.map Token.kind = out.map Token.kind :=
    lexC_go_rendered hs hd (fun _ => hh) _
  have hc : lexC (renderTokens out) = .ok toks' := by
    rw [←renderTokens_toList] at hg
    exact (lexC.go_bound le_rfl (by dsimp only; omega)).trans hg
  refine ⟨toks', ?_, hk⟩
  rw [lexPlainSource, renderTokens_toList, spliceContinuations_rendered hn, stripComments_rendered hs hd,
    ←renderTokens_toList, String.ofList_toList, hc]

theorem relexes_renderTokens_sum : Relexes [⟨⟨⟨1, 1⟩, ⟨1, 2⟩⟩, .ident "x"⟩, ⟨⟨⟨1, 2⟩, ⟨1, 3⟩⟩, .punct "+"⟩,
    ⟨⟨⟨1, 4⟩, ⟨1, 6⟩⟩, .punct "++"⟩] := by
  have hl : lexPlainSource "x+ ++" = .ok [⟨⟨⟨1, 1⟩, ⟨1, 2⟩⟩, .ident "x"⟩, ⟨⟨⟨1, 2⟩, ⟨1, 3⟩⟩, .punct "+"⟩,
      ⟨⟨⟨1, 4⟩, ⟨1, 6⟩⟩, .punct "++"⟩] := by decide
  have hp : (preprocess 4 [⟨⟨⟨1, 1⟩, ⟨1, 2⟩⟩, .ident "x"⟩, ⟨⟨⟨1, 2⟩, ⟨1, 3⟩⟩, .punct "+"⟩,
      ⟨⟨⟨1, 4⟩, ⟨1, 6⟩⟩, .punct "++"⟩]).run = some (.ok [⟨⟨⟨1, 1⟩, ⟨1, 2⟩⟩, .ident "x"⟩,
        ⟨⟨⟨1, 2⟩, ⟨1, 3⟩⟩, .punct "+"⟩, ⟨⟨⟨1, 4⟩, ⟨1, 6⟩⟩, .punct "++"⟩]) := by decide
  exact relexes_renderTokens ⟨_, _, hl, hp⟩ (by decide) (by decide) (by decide)

-- A directive is read in place of `##` at the start of the output. The newline in a literal is lost.
theorem not_relexes_renderTokens :
    (∃ out, Outputs "#define E\nE ##" out ∧ (∀ tok ∈ out, tok.kind.isDirective = false) ∧
      (∀ tok ∈ out.head?, tok.kind ≠ .punct "#") ∧ ¬Relexes out) ∧
    ∃ out, Outputs "\"\\\\\x0d\n\n\"" out ∧ (∀ tok ∈ out, tok.kind.isDirective = false) ∧
      (∀ tok ∈ out.head?, tok.kind ≠ .punct "#") ∧ ¬Relexes out := by
  have hnot {out toks : List Token} (h : lexPlainSource (renderTokens out) = .ok toks)
      (hk : toks.map Token.kind ≠ out.map Token.kind) : ¬Relexes out := by
    rintro ⟨toks', ht, hk'⟩
    exact hk <| Except.ok.inj (h.symm.trans ht) ▸ hk'
  constructor
  · have hl : lexPlainSource "#define E\nE ##" = .ok [⟨⟨⟨1, 1⟩, ⟨2, 1⟩⟩, .directive "#define E"⟩,
        ⟨⟨⟨2, 1⟩, ⟨2, 2⟩⟩, .ident "E"⟩, ⟨⟨⟨2, 3⟩, ⟨2, 5⟩⟩, .punct "##"⟩] := by decide
    have hp : (preprocess 9 [⟨⟨⟨1, 1⟩, ⟨2, 1⟩⟩, .directive "#define E"⟩, ⟨⟨⟨2, 1⟩, ⟨2, 2⟩⟩, .ident "E"⟩,
        ⟨⟨⟨2, 3⟩, ⟨2, 5⟩⟩, .punct "##"⟩]).run = some (.ok [⟨⟨⟨2, 3⟩, ⟨2, 5⟩⟩, .punct "##"⟩]) := by decide
    have hr : lexPlainSource (renderTokens [⟨⟨⟨2, 3⟩, ⟨2, 5⟩⟩, .punct "##"⟩]) =
        .ok [⟨⟨⟨1, 1⟩, ⟨2, 1⟩⟩, .directive "## "⟩] := by decide
    exact ⟨_, ⟨_, _, hl, hp⟩, by decide, by decide, hnot hr (by decide)⟩
  · have hl : lexPlainSource "\"\\\\\x0d\n\n\"" = .ok [⟨⟨⟨1, 1⟩, ⟨2, 2⟩⟩, .string "\"\\\n\""⟩] := by decide
    have hp : (preprocess 2 [⟨⟨⟨1, 1⟩, ⟨2, 2⟩⟩, .string "\"\\\n\""⟩]).run =
        some (.ok [⟨⟨⟨1, 1⟩, ⟨2, 2⟩⟩, .string "\"\\\n\""⟩]) := by decide
    have hr : lexPlainSource (renderTokens [⟨⟨⟨1, 1⟩, ⟨2, 2⟩⟩, .string "\"\\\n\""⟩]) =
        .ok [⟨⟨⟨1, 1⟩, ⟨1, 3⟩⟩, .string "\"\""⟩] := by decide
    exact ⟨_, ⟨_, _, hl, hp⟩, by decide, by decide, hnot hr (by decide)⟩

end Hcc
