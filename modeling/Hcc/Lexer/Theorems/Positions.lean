import Hcc.Lexer.Theorems.Scan
import Hcc.Preprocessor.Basic

namespace Hcc

-- The position after a text.
def posAfter (pos : SrcPos) (text : List Char) : SrcPos :=
  text.foldl (fun pos c => nextPos c pos) pos

-- Whitespace and comments in front of the rest of a text. A line comment ends before a newline or with the text, and a
-- block comment ends with the first `*/`.
inductive Gap (rest : List Char) : List Char → Prop
  | nil   : Gap rest []
  | space : isSpaceChar c → Gap rest gap → Gap rest (c :: gap)
  | line  : '\n' ∉ body → (∀ c ∈ (gap ++ rest).head?, c = '\n') → Gap rest gap → Gap rest ('/' :: '/' :: (body ++ gap))
  | block : ¬['*', '/'] <:+: body → Gap rest gap → Gap rest ('/' :: '*' :: (body ++ '*' :: '/' :: gap))

-- The tokens of a text, with their positions and with everything that is between them.
inductive Lexed : (pos : SrcPos) → (input : List Char) → (toks : List Token) → Prop
  | done {pos gap} : Gap [] gap → Lexed pos gap []
  | token {pos gap tok rest toks} : Gap ((tokenText tok.kind).toList ++ rest) gap → tokenText tok.kind ≠ "" →
    tok.span.start = posAfter pos gap → tok.span.stop = posAfter tok.span.start (tokenText tok.kind).toList →
    Lexed tok.span.stop rest toks → Lexed pos (gap ++ ((tokenText tok.kind).toList ++ rest)) (tok :: toks)

-- The text is consumed from the front of the input, and the position is moved over it.
structure Consumes (st : LexState) (text : List Char) (st' : LexState) : Prop where
  input : st.input = text ++ st'.input
  pos   : st'.pos = posAfter st.pos text

variable {st st₁ st' : LexState} {xs ys text input acc : List Char} {pos start : SrcPos} {tok : Token}

section Positions

@[simp]
theorem posAfter_nil : posAfter pos [] = pos := rfl

@[simp]
theorem posAfter_cons : posAfter pos (c :: xs) = posAfter (nextPos c pos) xs := rfl

@[simp]
theorem posAfter_append : posAfter pos (xs ++ ys) = posAfter (posAfter pos xs) ys :=
  List.foldl_append

-- A text without newlines moves the position by its length.
theorem posAfter_columns (h : '\n' ∉ xs) : posAfter pos xs = addColumns xs.length pos := by
  induction xs generalizing pos
  case nil          => simp [addColumns]
  case cons c cs hi =>
    have ⟨hc, hcs⟩ : '\n' ≠ c ∧ '\n' ∉ cs := by simpa using h
    rw [posAfter_cons, hi hcs, nextPos, if_neg (Ne.symm hc)]
    simp [addColumns]
    omega

@[simp]
theorem advanceMany_pos : (advanceMany xs st).pos = posAfter st.pos xs := by
  induction xs generalizing st
  case nil          => rfl
  case cons c cs hi => exact hi

end Positions

namespace Consumes

theorem refl (st) : Consumes st [] st := ⟨rfl, rfl⟩

theorem trans (h : Consumes st xs st₁) (h' : Consumes st₁ ys st') : Consumes st (xs ++ ys) st' where
  input := by rw [h.input, h'.input, List.append_assoc]
  pos   := by rw [h'.pos, h.pos, posAfter_append]

theorem advance (hi : st.input = c :: input) : Consumes st [c] (advance c { st with input }) where
  input := hi
  pos   := rfl

theorem advanceSpace (hi : st.input = c :: input) : Consumes st [c] (advanceSpace c { st with input }) where
  input := hi
  pos   := rfl

theorem advanceMany (hi : st.input = xs ++ input) : Consumes st xs (advanceMany xs { st with input }) where
  input := by simpa using hi
  pos   := by simp

theorem takeWhileColumns (hp : p '\n' = false) (h : takeWhileColumns p st = (text, st')) : Consumes st text st' := by
  have ⟨ht, _, hi⟩ := takeWhileColumns_spec h
  have hn : '\n' ∉ text := fun hm => nomatch hp.symm.trans <| ht _ hm
  refine ⟨hi, ?_⟩
  rw [posAfter_columns hn]
  simp only [Hcc.takeWhileColumns] at h
  split at h
  case h_1 => obtain ⟨rfl, rfl⟩ := Prod.mk.inj h; simp [addColumns]
  case h_2 => obtain ⟨rfl, rfl⟩ := Prod.mk.inj h; rfl

section Numbers

theorem takeFractionOf (hp : p '\n' = false) (h : takeFractionOf p st = (text, st')) : Consumes st text st' := by
  simp only [Hcc.takeFractionOf] at h
  split at h
  case h_1 | h_3 =>
    obtain ⟨rfl, rfl⟩ := Prod.mk.inj h
    exact refl _
  case h_2 rest _ hi =>
    rcases ht : Hcc.takeWhileColumns p (Hcc.advance '.' { st with input := rest }) with ⟨ds, st₁⟩
    rw [ht] at h
    obtain ⟨rfl, rfl⟩ := Prod.mk.inj h
    exact (advance hi).trans <| takeWhileColumns hp ht

theorem takeExponentSign (h : takeExponentSign st = (text, st')) : Consumes st text st' := by
  simp only [Hcc.takeExponentSign] at h
  split at h
  case h_2    =>
    obtain ⟨rfl, rfl⟩ := Prod.mk.inj h
    exact refl _
  case h_1 hi =>
    split at h <;> obtain ⟨rfl, rfl⟩ := Prod.mk.inj h
    case isTrue  => exact advance hi
    case isFalse => exact refl _

theorem takeExponent (h : takeExponent markers st = (text, st')) : Consumes st text st' := by
  simp only [Hcc.takeExponent] at h
  split at h
  case h_2 =>
    obtain ⟨rfl, rfl⟩ := Prod.mk.inj h
    exact refl _
  case h_1 c rest hi =>
    rcases hs : Hcc.takeExponentSign (Hcc.advance c { st with input := rest }) with ⟨sign, st₁⟩
    rcases hd : Hcc.takeWhileColumns isDigitChar st₁ with ⟨ds, st₂⟩
    simp only [hs, hd] at h
    split_ifs at h <;> obtain ⟨rfl, rfl⟩ := Prod.mk.inj h
    · exact refl _
    · exact (advance hi).trans <| (takeExponentSign hs).trans <| takeWhileColumns rfl hd
    · exact refl _

theorem takeHexNumber (hi : st.input = xs ++ input) (h : takeHexNumber xs input st = .ok (text, cls, st')) :
    Consumes st text st' := by
  rcases hD : Hcc.takeWhileColumns isHexDigit (Hcc.advanceMany xs { st with input }) with ⟨D, st₁⟩
  rcases hF : takeHexFraction st₁ with ⟨F, st₂⟩
  rcases hE : Hcc.takeExponent ['p', 'P'] st₂ with ⟨E, st₃⟩
  rcases hS : Hcc.takeWhileColumns (if F.isEmpty && E.isEmpty then isIntSuffix else isFloatSuffix) st₃ with ⟨S, st₄⟩
  simp only [Hcc.takeHexNumber, hD, hF, hE, hS] at h
  split at h <;> try contradiction
  obtain ⟨rfl, _, rfl⟩ := by simpa using h
  have hs : (if F.isEmpty && E.isEmpty then isIntSuffix else isFloatSuffix) '\n' = false := by split <;> rfl
  simpa using (advanceMany hi).trans <| (takeWhileColumns rfl hD).trans <| (takeFractionOf rfl hF).trans <|
    (takeExponent hE).trans <| takeWhileColumns hs hS

theorem takeDecimalNumber (h : takeDecimalNumber st = .ok (text, cls, st')) : Consumes st text st' := by
  rcases hD : Hcc.takeWhileColumns isDigitChar st with ⟨D, st₁⟩
  rcases hF : takeFraction st₁ with ⟨F, st₂⟩
  rcases hE : Hcc.takeExponent ['e', 'E'] st₂ with ⟨E, st₃⟩
  rcases hS : Hcc.takeWhileColumns isNumberSuffix st₃ with ⟨S, st₄⟩
  simp only [Hcc.takeDecimalNumber, hD, hF, hE, hS] at h
  split at h <;> try contradiction
  obtain ⟨rfl, _, rfl⟩ := by simpa using h
  simpa using (takeWhileColumns rfl hD).trans <| (takeFractionOf rfl hF).trans <| (takeExponent hE).trans <|
    takeWhileColumns rfl hS

theorem takeNumber (h : takeNumber st = .ok (text, cls, st')) : Consumes st text st' := by
  simp only [Hcc.takeNumber] at h
  split at h
  case h_1 hi => exact takeHexNumber (by simpa using hi) h
  case h_2 hi => exact takeHexNumber (by simpa using hi) h
  case h_3    => exact takeDecimalNumber h

end Numbers

-- The scanners of literals and comments carry the input on their own, so the state only has the position.
theorem lexQuoted_go (h : lexQuoted.go quote kind start st acc input = .ok (tok, st')) :
    ∃ text, Consumes { st with input } text st' ∧ tok = ⟨⟨start, st'.pos⟩, kind (.ofList (acc.reverse ++ text))⟩ := by
  fun_induction lexQuoted.go
  all_goals first | contradiction | skip
  case case3 cur acc cs st₁ text _ =>
    obtain ⟨rfl, rfl⟩ := Prod.mk.inj <| Except.ok.inj h
    exact ⟨[quote], ⟨rfl, rfl⟩, by simp [text]⟩
  case case5 hi =>
    obtain ⟨text, ⟨hin, hp⟩, ht⟩ := hi h
    exact ⟨_ :: _ :: text, ⟨by simp_all, hp⟩, by simpa using ht⟩
  case case7 hi =>
    obtain ⟨text, ⟨hin, hp⟩, ht⟩ := hi h
    exact ⟨_ :: text, ⟨by simp_all, hp⟩, by simpa using ht⟩

theorem skipBlockComment_go (h : skipBlockComment.go start st input = .ok st') :
    ∃ body, ¬['*', '/'] <:+: body ∧ Consumes { st with input } (body ++ ['*', '/']) st' := by
  fun_induction skipBlockComment.go
  case case1 => contradiction
  case case2 =>
    obtain rfl := Except.ok.inj h
    exact ⟨[], by simp, by simp, by simp⟩
  case case3 cur c cs hn hi =>
    obtain ⟨body, hb, hin, hp⟩ := hi h
    refine ⟨c :: body, fun h => ?_, by simp_all, hp⟩
    rcases List.infix_cons_iff.mp h with ⟨_, h⟩ | h
    · obtain ⟨rfl, rfl⟩ := by simpa using h
      exact hn _ rfl hin
    · exact hb h

theorem takeUntilNewline_go :
    ∃ body, '\n' ∉ body ∧ (Consumes { st with input } (body ++ ['\n']) (takeUntilNewline.go st acc input).2 ∨
      Consumes { st with input } body (takeUntilNewline.go st acc input).2 ∧
        (takeUntilNewline.go st acc input).2.input = []) := by
  fun_induction takeUntilNewline.go
  case case1 => exact ⟨[], by simp, .inr ⟨⟨rfl, rfl⟩, rfl⟩⟩
  case case2 => exact ⟨[], by simp, .inl ⟨rfl, rfl⟩⟩
  case case3 cur acc c cs hn hi =>
    obtain ⟨body, hb, h⟩ := hi
    refine ⟨c :: body, by simp [hb, Ne.symm (mt id hn)], h.imp (fun h => ?_) (fun h => ?_)⟩
    · exact ⟨by simpa using h.input, h.pos⟩
    · exact ⟨⟨by simpa using h.left.input, h.left.pos⟩, h.right⟩

end Consumes

section Run

variable {tok? : Option Token} {toks acc : List Token} {sep next : List Char}

-- A separator continues every gap behind it.
def Separates (sep next : List Char) : Prop :=
  ∀ {gap rest}, gap ++ rest = next → Gap rest gap → Gap rest (sep ++ gap)

theorem Lexed.skip (hs : Separates sep next) (h : Lexed (posAfter pos sep) next toks) : Lexed pos (sep ++ next) toks := by
  cases h
  case done hg => exact .done <| hs (List.append_nil _) hg
  case token hg hn hp' hl hp =>
    rw [←List.append_assoc]
    exact .token (hs rfl hg) hn (by rw [hp, posAfter_append]) hp' hl

structure SpelledToken (st : LexState) (tok : Token) (st' : LexState) : Prop where
  text     : Consumes st (tokenText tok.kind).toList st'
  span     : tok.span = ⟨st.pos, st'.pos⟩
  nonempty : tokenText tok.kind ≠ ""

theorem Separates.block (hb : ¬['*', '/'] <:+: text) : Separates ('/' :: '*' :: (text ++ ['*', '/'])) next := by
  intro gap rest _ hg
  simpa using Gap.block hb hg

theorem Separates.line (hb : '\n' ∉ text) : Separates ('/' :: '/' :: (text ++ ['\n'])) next := by
  intro gap rest _ hg
  simpa using Gap.line hb (by simp) (.space (c := '\n') rfl hg)

theorem Separates.lastLine (hb : '\n' ∉ text) : Separates ('/' :: '/' :: text) [] := by
  intro gap rest hn _
  obtain ⟨rfl, rfl⟩ := List.append_eq_nil_iff.mp hn
  simpa using Gap.line hb (by simp) .nil

theorem skipBlockComment_separates (hi : st.input = '/' :: '*' :: input) (h : skipBlockComment st = .ok st') :
    ∃ sep, Separates sep st'.input ∧ Consumes st sep st' := by
  simp only [skipBlockComment, hi, List.drop_succ_cons, List.drop_zero] at h
  split at h <;> try contradiction
  case h_2 hg =>
    obtain rfl := Except.ok.inj h
    obtain ⟨body, hb, hin, hp⟩ := Consumes.skipBlockComment_go hg
    exact ⟨_, Separates.block hb, by simp [hi, ←hin], by simpa using hp⟩

theorem SpelledToken.lexQuoted {quote : Char} {kind : String → TokenKind} (hk : ∀ text, tokenText (kind text) = text)
    (hi : st.input = quote :: input) (h : lexQuoted quote kind st = .ok (tok, st')) : SpelledToken st tok st' := by
  simp only [Hcc.lexQuoted, hi, List.drop_succ_cons, List.drop_zero] at h
  obtain ⟨text, ht, he⟩ := Consumes.lexQuoted_go h
  subst he
  have hq : Consumes st (quote :: text) st' := ⟨by simpa [hi] using ht.input, ht.pos⟩
  exact ⟨by simpa [hk] using hq, rfl, by simp [hk]⟩

theorem opener_of_append {a b : Char} {tail : List Char} (h : a :: b :: input = text ++ tail)
    (ht : ∀ c ∈ tail.head?, c ≠ a ∧ c ≠ b) : ∃ body, text = a :: b :: body := by
  rcases text with _ | ⟨a', _ | ⟨b', body⟩⟩
  · have h : a :: b :: input = tail := h
    exact absurd rfl (ht a <| h ▸ rfl).left
  · have h : b :: input = tail := (List.cons.inj h).right
    exact absurd rfl (ht b <| h ▸ rfl).right
  · obtain ⟨rfl, rfl, _⟩ := by simpa using h
    exact ⟨body, rfl⟩

theorem Scan.separates (h : Scan st none st') : ∃ sep, Separates sep st'.input ∧ Consumes st sep st' := by
  generalize ht : none = tok? at h
  cases h <;> try contradiction
  case space hi hc => exact ⟨[_], fun _ hg => .space hc hg, .advanceSpace hi⟩
  case lineComment hi =>
    have ⟨body, hb, h⟩ := @Consumes.takeUntilNewline_go st st.input []
    obtain ⟨body, rfl⟩ : ∃ text, body = '/' :: '/' :: text := by
      rcases h with h | ⟨h, he⟩
      · exact opener_of_append (hi.symm.trans <| h.input.trans <| List.append_assoc ..) (by simp)
      · exact opener_of_append (hi.symm.trans h.input) (by simp [he])
    have hb : '\n' ∉ body := by simpa using hb
    rcases h with h | ⟨h, he⟩
    · exact ⟨_, Separates.line hb, h⟩
    · exact ⟨_, he ▸ Separates.lastLine hb, h⟩
  case blockComment hi h => exact skipBlockComment_separates hi h

theorem Scan.spelledToken (h : Scan st (some tok) st') (hd : ∀ text, tok.kind ≠ .directive text) :
    SpelledToken st tok st' := by
  generalize ht : some tok = tok? at h
  cases h <;> try contradiction
  all_goals obtain rfl := Option.some.inj ht
  case directive h =>
    obtain ⟨rfl, _⟩ := Prod.mk.inj <| Except.ok.inj h
    exact absurd rfl <| hd _
  case ident hi hc =>
    rcases hw : takeIdent st with ⟨x, st'⟩
    have hh := takeWhileColumns_head hw hi <| isIdentChar_of_start hc
    have hx : x ≠ [] := by rintro rfl; contradiction
    simp only [lexIdent, hw]
    exact ⟨by simpa [tokenText] using Consumes.takeWhileColumns rfl hw, rfl, by simpa [tokenText] using hx⟩
  case number hi hc h =>
    simp only [lexNumber] at h
    split at h <;> try contradiction
    case h_2 x cls st₁ hn =>
      obtain ⟨rfl, rfl⟩ := Prod.mk.inj <| Except.ok.inj h
      obtain ⟨_, hx, _⟩ := (takeNumber_text hn hi hc).head
      have hx : x ≠ [] := by rintro rfl; contradiction
      have hc := Consumes.takeNumber hn
      cases cls <;> exact ⟨by simpa [tokenText] using hc, rfl, by simpa [tokenText] using hx⟩
  case char hi h   => exact .lexQuoted (fun _ => rfl) hi h
  case string hi h => exact .lexQuoted (fun _ => rfl) hi h
  case punct h =>
    obtain ⟨text, hf, h⟩ := Option.map_eq_some_iff.mp h
    obtain ⟨rfl, rfl⟩ := Prod.mk.inj h
    have hm : ∀ text ∈ punctuators, '\n' ∉ text.toList ∧ text ≠ "" := by decide
    obtain ⟨hn, he⟩ := hm text <| List.mem_of_find?_eq_some hf
    have hr : text.toList.isPrefixOf st.input := by simpa using List.find?_some hf
    obtain ⟨rest, hr⟩ := List.isPrefixOf_iff_prefix.mp hr
    refine ⟨⟨?_, (posAfter_columns hn).symm⟩, rfl, he⟩
    simp [tokenText, ←hr]

-- A run of the lexer without directives consumes its input as gaps and tokens.
theorem lexC.go_lexed (h : go bound st acc = .ok toks) (hb : st.input.length ≤ bound)
    (hd : ∀ tok ∈ toks, ∀ text, tok.kind ≠ .directive text) :
    ∃ new, toks = acc.reverse ++ new ∧ Lexed st.pos st.input new := by
  induction bound generalizing st acc
  case zero =>
    have hi : st.input = [] := by simpa using hb
    exact ⟨[], by simpa using (Except.ok.inj h).symm, hi ▸ .done .nil⟩
  case succ bound hi =>
    rcases hc : st.input with _ | ⟨c, cs⟩
    · rw [go_nil hc] at h
      exact ⟨[], by simpa using (Except.ok.inj h).symm, .done .nil⟩
    · have ⟨tok?, st', hs, h⟩ := go_scan h hc
      have ⟨new, he, hl⟩ := hi h (by have := hs.lt; omega)
      rw [←hc]
      cases tok?
      case none =>
        have ⟨sep, hsep, ht⟩ := hs.separates
        refine ⟨new, he, ?_⟩
        rw [ht.input]
        exact .skip hsep <| ht.pos ▸ hl
      case some tok =>
        have ⟨ht, hp, hn⟩ := hs.spelledToken <| hd tok (by simp [he])
        refine ⟨tok :: new, by simpa using he, ?_⟩
        rw [ht.input]
        exact @Lexed.token _ [] _ _ _ .nil hn (by simp [hp]) (by simp [hp, ht.pos]) (by simpa [hp] using hl)

end Run

section Between

variable {p q r : SrcPos} {zs : List Char}

def SrcPos.before (p q : SrcPos) : Bool :=
  p.line < q.line || (p.line = q.line && p.col < q.col)

-- The part of a text that starts at `start` and that ends in front of `stop`.
def between (start stop : SrcPos) : (pos : SrcPos) → List Char → List Char
  | _,   []      => []
  | pos, c :: cs =>
    if !pos.before start && pos.before stop then c :: between start stop (nextPos c pos) cs
    else between start stop (nextPos c pos) cs

theorem SrcPos.before_irrefl : p.before p = false := by
  simp [before]

theorem SrcPos.before_trans (h : p.before q) (h' : q.before r) : p.before r := by
  simp only [before, Bool.or_eq_true, Bool.and_eq_true, decide_eq_true_eq] at *
  omega

theorem SrcPos.before_nextPos : pos.before (nextPos c pos) := by
  simp only [before, nextPos]
  split <;> simp <;> omega

theorem SrcPos.before_posAfter (hx : xs ≠ []) : pos.before (posAfter pos xs) := by
  induction xs generalizing pos
  case nil => contradiction
  case cons c cs hi =>
    cases cs
    case nil  => exact before_nextPos
    case cons => exact before_trans before_nextPos <| hi nofun

theorem posAfter_eq_self : pos = posAfter pos xs ↔ xs = [] := by
  constructor
  case mp  =>
    intro h
    by_contra hx
    have hb := @SrcPos.before_posAfter xs pos hx
    rw [←h, SrcPos.before_irrefl] at hb
    contradiction
  case mpr => rintro rfl; rfl

theorem SrcPos.not_before_posAfter : (posAfter pos xs).before pos = false := by
  cases xs
  case nil => exact before_irrefl
  case cons c cs =>
    by_contra h
    have ha := @before_posAfter (c :: cs) pos (List.cons_ne_nil c cs)
    exact nomatch before_irrefl.symm.trans <| before_trans ha <| by simpa using h

theorem between_append :
    between p q pos (xs ++ ys) = between p q pos xs ++ between p q (posAfter pos xs) ys := by
  induction xs generalizing pos
  case nil          => rfl
  case cons c cs hi =>
    simp only [List.cons_append, between, hi, posAfter_cons]
    split <;> rfl

theorem SrcPos.not_before_nextPos (h : pos.before q = false) : (nextPos c pos).before q = false := by
  by_contra hn
  exact nomatch h.symm.trans <| before_trans before_nextPos <| by simpa using hn

theorem between_before : between (posAfter pos xs) q pos xs = [] := by
  induction xs generalizing pos
  case nil          => rfl
  case cons c cs hi =>
    have hb : pos.before (posAfter pos (c :: cs)) := SrcPos.before_posAfter <| List.cons_ne_nil c cs
    rw [between, hb]
    exact hi

theorem between_after (h : pos.before q = false) : between p q pos xs = [] := by
  induction xs generalizing pos
  case nil          => rfl
  case cons c cs hi =>
    rw [between, h, Bool.and_false]
    exact hi <| SrcPos.not_before_nextPos h

theorem between_inside (h : pos.before p = false) : between p (posAfter pos xs) pos xs = xs := by
  induction xs generalizing pos
  case nil          => rfl
  case cons c cs hi =>
    have hb : pos.before (posAfter pos (c :: cs)) := SrcPos.before_posAfter <| List.cons_ne_nil c cs
    rw [between, h, hb]
    exact congrArg (c :: ·) <| hi <| SrcPos.not_before_nextPos h

variable (pos xs ys zs) in
-- The text between two positions is what lies between them.
theorem between_eq : between (posAfter pos xs) (posAfter (posAfter pos xs) ys) pos (xs ++ (ys ++ zs)) = ys := by
  rw [between_append, between_append, between_before, between_inside SrcPos.before_irrefl,
    between_after SrcPos.before_irrefl, List.nil_append, List.append_nil]

end Between

section Lossless

variable {toks : List Token} {source : List Char}

-- The spans of what is between the tokens, in front of them and behind them.
def gaps (start stop : SrcPos) : List Token → List Span
  | []          => [⟨start, stop⟩]
  | tok :: toks => ⟨start, tok.span.start⟩ :: gaps tok.span.stop stop toks

def spanText (pos : SrcPos) (source : List Char) (span : Span) : List Char :=
  between span.start span.stop pos source

-- What is known about the text in front of a position, and about the tokens behind it.
structure Exact (pos start : SrcPos) (source : List Char) (toks : List Token) : Prop where
  ordered   : toks.Pairwise fun a b => b.span.start.before a.span.stop = false
  behind    : ∀ tok ∈ toks, tok.span.start.before start = false
  texts     : ∀ tok ∈ toks, tok.span.start.before tok.span.stop ∧
    spanText pos source tok.span = (tokenText tok.kind).toList
  separated : ∀ gap ∈ gaps start (posAfter pos source) toks,
    Gap (between gap.stop (posAfter pos source) pos source) (spanText pos source gap) ∧
    (gap.start = gap.stop ↔ spanText pos source gap = [])

theorem Lexed.exact (h : Lexed start input toks) (hp : start = posAfter pos xs) (hs : source = xs ++ input) :
    Exact pos start source toks := by
  induction h generalizing xs <;> subst hs
  case done start input hg =>
    have he : posAfter pos (xs ++ input) = posAfter start input := by rw [posAfter_append, hp]
    have ht : spanText pos (xs ++ input) ⟨start, posAfter start input⟩ = input := by
      simpa [hp, spanText] using between_eq xs input pos []
    have hn : between (posAfter start input) (posAfter start input) pos (xs ++ input) = [] := by
      simpa [he] using between_eq (xs ++ input) [] pos []
    refine ⟨.nil, nofun, nofun, fun gap hgap => ?_⟩
    obtain rfl := List.mem_singleton.mp hgap
    simpa [he, ht, hn] using ⟨hg, posAfter_eq_self⟩
  case token start gap tok rest toks hg hn hstart hstop hl hi =>
    set text := (tokenText tok.kind).toList with htext
    set source := xs ++ (gap ++ (text ++ rest)) with hsource
    have hne : text ≠ [] := by simpa [htext] using hn
    have hs : source = (xs ++ gap ++ text) ++ rest := by simp [hsource]
    have he : tok.span.stop = posAfter pos (xs ++ gap ++ text) := by
      rw [posAfter_append, posAfter_append, ←hp, ←hstart, hstop]
    have hend : posAfter pos source = posAfter tok.span.start (text ++ rest) := by
      rw [hstart, hp, hsource, posAfter_append, posAfter_append]
    have ⟨hordered, hbehind, htexts, hgaps⟩ := hi he hs
    have hgap : spanText pos source ⟨start, tok.span.start⟩ = gap := by
      rw [hstart, hp]
      exact between_eq ..
    have hs' : tok.span.start = posAfter pos (xs ++ gap) := by rw [posAfter_append, ←hp, hstart]
    have hrest : between tok.span.start (posAfter pos source) pos source = text ++ rest := by
      rw [hend, hs', hsource]
      simpa using between_eq (xs ++ gap) (text ++ rest) pos []
    have htok : spanText pos source tok.span = text := by
      rw [spanText, hstop, hs', hsource]
      simpa using between_eq (xs ++ gap) text pos rest
    refine ⟨.cons hbehind hordered, List.forall_mem_cons.mpr ⟨?_, fun b hb => ?_⟩,
      List.forall_mem_cons.mpr ⟨⟨?_, htok⟩, htexts⟩, List.forall_mem_cons.mpr ⟨⟨?_, ?_⟩, hgaps⟩⟩
    · rw [hstart]
      exact SrcPos.not_before_posAfter
    · by_contra hc
      have hb' : start.before tok.span.stop := by
        rw [hstop, hstart, ←posAfter_append]
        exact SrcPos.before_posAfter <| by simp [hne]
      exact nomatch (hbehind b hb).symm.trans <| SrcPos.before_trans (by simpa using hc) hb'
    · rw [hstop]
      exact SrcPos.before_posAfter hne
    · rw [hrest, hgap]
      exact hg
    · rw [hgap]
      show start = tok.span.start ↔ gap = []
      rw [hstart]
      exact posAfter_eq_self

theorem gaps_ne_nil {stop : SrcPos} : gaps start stop toks ≠ [] := by
  cases toks <;> nofun

theorem sourceFromTokens_go_flags {stop : SrcPos} (p : Span → Prop) [DecidablePred p]
    (h : ∀ gap ∈ gaps start stop toks, gap.start = gap.stop ↔ ¬p gap) :
    (sourceFromTokens.go start toks).map (·.space) = (gaps start stop toks).dropLast.map fun gap => decide (p gap) := by
  induction toks generalizing start
  case nil              => rfl
  case cons tok toks hi =>
    have ⟨hg, hgs⟩ := List.forall_mem_cons.mp h
    have hg : start ≠ tok.span.start ↔ p ⟨start, tok.span.start⟩ := not_iff_comm.mp hg.symm
    rw [gaps, List.dropLast_cons_of_ne_nil gaps_ne_nil, List.map_cons, sourceFromTokens.go, List.map_cons, hi hgs]
    simp [hg]

-- The text of a program can be recovered from the tokens and from what is between them. The first token always counts
-- as separated, and each other token does if and only if something is in front of it.
theorem lexC_lossless {source : String} (h : lexC source = .ok toks)
    (hd : ∀ tok ∈ toks, ∀ text, tok.kind ≠ .directive text) :
    let text := spanText ⟨1, 1⟩ source.toList
    let stop := posAfter ⟨1, 1⟩ source.toList
    (toks.Pairwise fun a b => b.span.start.before a.span.stop = false) ∧
    (∀ tok ∈ toks, tok.span.start.before tok.span.stop ∧ text tok.span = (tokenText tok.kind).toList) ∧
    (∀ gap ∈ gaps ⟨1, 1⟩ stop toks, Gap (text ⟨gap.stop, stop⟩) (text gap) ∧ (gap.start = gap.stop ↔ text gap = [])) ∧
    ∀ tok rest, toks = tok :: rest → (sourceFromTokens toks).map (·.space) =
      true :: (gaps tok.span.stop stop rest).dropLast.map fun gap => text gap ≠ [] := by
  have ⟨_, he, hl⟩ := lexC.go_lexed h le_rfl hd
  obtain rfl : toks = _ := he
  have ⟨hordered, hbehind, htexts, hgaps⟩ := @Lexed.exact [] _ ⟨1, 1⟩ _ _ _ hl rfl rfl
  refine ⟨hordered, htexts, hgaps, ?_⟩
  rintro tok rest rfl
  have hstart : (⟨0, 0⟩ : SrcPos) ≠ tok.span.start := by
    intro hs
    have hb := hbehind tok <| .head _
    rw [←hs] at hb
    contradiction
  rw [sourceFromTokens, sourceFromTokens.go, List.map_cons]
  simp only [hstart, ne_eq, not_false_eq_true, decide_true]
  refine congrArg _ <| sourceFromTokens_go_flags (fun gap => ¬spanText ⟨1, 1⟩ source.toList gap = []) fun gap hgap => ?_
  rw [not_not]
  exact (hgaps gap <| .tail _ hgap).right

theorem lexC_lossless_unary :
    let toks : List Token := [⟨⟨⟨1, 1⟩, ⟨1, 2⟩⟩, .punct "-"⟩, ⟨⟨⟨1, 8⟩, ⟨1, 9⟩⟩, .ident "x"⟩]
    (toks.Pairwise fun a b => b.span.start.before a.span.stop = false) ∧
    ∀ tok ∈ toks, spanText ⟨1, 1⟩ "-/* */ x".toList tok.span = (tokenText tok.kind).toList := by
  have hl : lexC "-/* */ x" = .ok [⟨⟨⟨1, 1⟩, ⟨1, 2⟩⟩, .punct "-"⟩, ⟨⟨⟨1, 8⟩, ⟨1, 9⟩⟩, .ident "x"⟩] := rfl
  have h := lexC_lossless hl <| by simp
  exact ⟨h.left, fun tok ht => (h.right.left tok ht).right⟩

end Lossless
end Hcc
