import Hcc.Lexer.Theorems.Steps
import Hcc.Preprocessor.Provenance
import Hcc.Preprocessor.Theorems.Pastes

namespace Hcc

section Runs

variable {condition : ExpandCondition} {bound fuel : Nat} {toks handled : List Token} {macros : Macros}
variable {frames : List IfFrame} {rest acc : List PPToken}

theorem preprocess_go_token {tok : PPToken} (hn : tok.token.kind.isDirective = false) :
    preprocess.go (fuel + 1) macros frames (tok :: rest) acc =
      if ifStackActive frames then do
        let (expanded, next, _) ← expandNextSource (expandSource macros fuel) macros (tok :: rest)
        preprocess.go fuel macros frames next (acc ++ expanded)
      else preprocess.go fuel macros frames rest acc := by
  rw [preprocess.go]
  split
  case h_1 hk => simp [hk, TokenKind.isDirective] at hn
  case h_2    => rfl

-- The states are the ones of the code.
theorem Reaches.preprocess (h : Reaches condition bound toks fuel macros frames rest acc handled) :
    preprocess bound toks = preprocess.go fuel macros frames rest acc := by
  induction h
  case start => rfl
  case directive hk hd hi => simp [hi, preprocess.go, hk, hd]
  case expand hn ha _ hx hi => simp [hi, preprocess_go_token hn, ha, hx]
  case skip hn ha hi => simp [hi, preprocess_go_token hn, ha]

-- A run of the code that succeeds is a run to the end of the source.
theorem preprocess_go_reaches (h : Reaches (fun _ _ _ => True) bound toks fuel macros frames rest acc handled)
    (hp : preprocess.go fuel macros frames rest acc = .done (.ok out)) :
    ∃ fuel' macros' acc' handled',
      Reaches (fun _ _ _ => True) bound toks fuel' macros' [] [] acc' handled' ∧ out = acc'.map PPToken.token := by
  induction fuel generalizing macros frames rest acc handled
  case zero => contradiction
  case succ fuel hi =>
    cases rest
    case nil =>
      simp only [preprocess.go] at hp
      split at hp
      case isFalse => cases Fueled.done_inj.mp hp
      case isTrue hf =>
        obtain rfl := List.isEmpty_iff.mp hf
        exact ⟨_, _, _, _, h, (Except.ok.inj <| Fueled.done_inj.mp hp).symm⟩
    case cons tok rest =>
      cases hn : tok.token.kind.isDirective
      case true =>
        cases hk : tok.token.kind
        case directive text =>
          simp only [preprocess.go, hk] at hp
          obtain ⟨⟨macros', frames'⟩, hd, hp⟩ := Fueled.bind_eq_done_ok.mp hp
          exact hi (.directive h hk hd) hp
        all_goals simp [hk, TokenKind.isDirective] at hn
      case false =>
        rw [preprocess_go_token hn] at hp
        split at hp
        case isTrue ha =>
          obtain ⟨⟨expanded, next, trailing⟩, hx, hp⟩ := Fueled.bind_eq_done_ok.mp hp
          exact hi (.expand h hn ha trivial hx) hp
        case isFalse ha => exact hi (.skip h hn <| Bool.eq_false_of_not_eq_true ha) hp

theorem preprocess_reaches (hp : preprocess bound toks = .done (.ok out)) :
    ∃ fuel macros acc handled,
      Reaches (fun _ _ _ => True) bound toks fuel macros [] [] acc handled ∧ out = acc.map PPToken.token :=
  preprocess_go_reaches .start hp

end Runs

section Definitions

variable {text rest : List Char} {toks : List Token} {P : TokenKind → Prop}

-- The rest of a directive is a part of its text.
theorem parseDirective_rest {text : String} : (parseDirective text).rest.Sublist text.toList := by
  have hd {cs} : (dropSpaces cs).Sublist cs := List.dropWhile_sublist _
  unfold parseDirective
  split
  case h_2      => exact List.nil_sublist _
  case h_1 hs =>
    refine hd.trans <| (List.dropWhile_sublist _).trans <| hd.trans <| (List.sublist_cons_self '#' _).trans ?_
    exact hs ▸ hd

theorem takeMacroParams_go_rest (h : takeMacroParams.go sp depth acc text = .ok (params, rest)) : rest.Sublist text := by
  fun_induction takeMacroParams.go
  case case1    => contradiction
  case case2    => exact (Prod.mk.inj <| Except.ok.inj h).right ▸ List.sublist_cons_self ..
  case case3 hi => exact (hi h).trans <| List.sublist_cons_self ..
  case case4 hi => exact (hi h).trans <| List.sublist_cons_self ..
  case case5 hi => exact (hi h).trans <| List.sublist_cons_self ..

theorem isDirective_eq_false {k : TokenKind} (h : ∀ text, k ≠ .directive text) : k.isDirective = false := by
  cases k
  case directive => exact nomatch h _ rfl
  all_goals rfl

-- The word in front of a replacement keeps `#` from being lexed as the start of a directive.
theorem lexReplacement_plain (hn : '\n' ∉ text) (h : lexReplacement sp text = .ok toks) :
    ∀ tok ∈ toks, tok.kind.isDirective = false := by
  simp only [lexReplacement] at h
  split at h
  case h_1 => contradiction
  case h_3 => simp [←Except.ok.inj h]
  case h_2 word toks' hl =>
    obtain rfl := Except.ok.inj h
    have hn : '\n' ∉ "__hcc_macro_dummy ".toList ++ dropSpaces text := by
      simp only [List.mem_append, not_or]
      exact ⟨by decide, fun hm => hn <| (List.dropWhile_sublist _).subset hm⟩
    rw [lexC, String.toList_ofList] at hl
    obtain ⟨_, new, he, hd⟩ := lexC_go_word (by decide) hn hl
    obtain ⟨rfl, rfl⟩ := List.cons.inj he
    exact fun tok ht => isDirective_eq_false <| hd tok ht

theorem parseFunctionMacro_body (h : parseFunctionMacro sp name text = .ok m) :
    ∃ body, body.Sublist text ∧ lexReplacement sp body = .ok (macroBody m) := by
  have ⟨⟨paramText, bodyText⟩, ht, h⟩ := Except.bind_eq_ok.mp h
  have ⟨⟨params, variadic⟩, hp, h⟩ := Except.bind_eq_ok.mp h
  have ⟨body, hb, h⟩ := Except.bind_eq_ok.mp h
  obtain rfl := Except.ok.inj h
  exact ⟨bodyText, takeMacroParams_go_rest ht, hb⟩

-- The body of a macro is lexed from a part of the definition.
theorem parseMacroDefinition_body (h : parseMacroDefinition sp text = .ok m) :
    ∃ body, body.Sublist text ∧ lexReplacement sp body = .ok (macroBody m) := by
  unfold parseMacroDefinition at h
  extract_lets unnamed at h
  split at h
  case h_1 => contradiction
  case h_2 c cs hc =>
    have hw : ((c :: cs).dropWhile isIdentChar).Sublist text :=
      (List.dropWhile_sublist _).trans <| hc ▸ List.dropWhile_sublist _
    split at h
    case isFalse => contradiction
    case isTrue  =>
      split at h
      case h_1 rest hr =>
        have ⟨body, hs, hb⟩ := parseFunctionMacro_body h
        exact ⟨body, hs.trans <| (List.sublist_cons_self _ _).trans <| hr ▸ hw, hb⟩
      case h_2 =>
        cases hb : lexReplacement sp ((c :: cs).dropWhile isIdentChar) <;> rw [hb] at h
        case error   => contradiction
        case ok body => exact ⟨_, hw, Except.ok.inj h ▸ hb⟩

theorem defineMacro_all {macros macros' : Macros} (hm : BodiesAll P macros)
    (hp : ∀ body toks, body.Sublist text → lexReplacement sp body = .ok toks → ∀ tok ∈ toks, P tok.kind)
    (h : defineMacro macros sp text = .ok macros') : BodiesAll P macros' := by
  unfold defineMacro at h
  cases hd : parseMacroDefinition sp text <;> rw [hd] at h
  case error => contradiction
  case ok m  =>
    have ⟨body, hs, hb⟩ := parseMacroDefinition_body hd
    exact Except.ok.inj h ▸ SymbolMap.All.insert hm (hp body _ hs hb)

end Definitions

section Directives

variable {toks handled front : List Token} {rest next : List PPToken} {n : Nat}

theorem plain_operators : KeptByOperators (·.isDirective = false) PlainPaste where
  stringify _ := rfl
  paste _ _ hq hx := hq _ hx

-- Tokens that are consumed without being handled are no directives.
theorem HandlesSource.consume {rest' : List PPToken} {replaced : List Token}
    (h : HandlesSource toks rest handled n front) (consumed : List PPToken) (hs : rest = consumed ++ rest')
    (hc : ∀ tok ∈ consumed, tok.token.kind.isDirective = false)
    (hr : ∀ tok ∈ replaced, tok.kind.isDirective = false)
    (hn : next.map PPToken.token = replaced ++ rest'.map PPToken.token) :
    ∃ n' front', HandlesSource toks next handled n' front' := by
  have he : front ++ toks.drop n = consumed.map PPToken.token ++ rest'.map PPToken.token := by
    rw [←h.rest, hs, List.map_append]
  have hc : ∀ tok ∈ consumed.map PPToken.token, tok.kind.isDirective = false := by simpa using hc
  rcases List.append_eq_append_iff.mp he with ⟨as, ha, hd⟩ | ⟨bs, ha, hd⟩
  · -- Some tokens of the source are consumed.
    have hf : as.filter (·.kind.isDirective) = [] :=
      List.filter_eq_nil_iff.mpr fun tok ht => by simp [hc tok <| ha ▸ List.mem_append_right _ ht]
    refine ⟨n + as.length, replaced, ?_, ?_, hr⟩
    · rw [List.take_add, hd, List.take_left, List.filter_append, hf, List.append_nil, h.handled]
    · rw [hn, ←List.drop_drop, hd, List.drop_left]
  · refine ⟨n, replaced ++ bs, h.handled, by rw [hn, hd, List.append_assoc], fun tok ht => ?_⟩
    exact (List.mem_append.mp ht).elim (hr tok) fun hb => h.front tok <| ha ▸ List.mem_append_right _ hb

theorem HandlesSource.drop {tok : PPToken} (h : HandlesSource toks (tok :: rest) handled n front)
    (ht : tok.token.kind.isDirective = false) : ∃ n' front', HandlesSource toks rest handled n' front' :=
  h.consume [tok] rfl (by simpa using ht) (List.forall_mem_nil _) (List.nil_append _).symm

theorem HandlesSource.handle {tok : PPToken} (h : HandlesSource toks (tok :: rest) handled n front)
    (ht : tok.token.kind.isDirective) : tok.token ∈ toks ∧ HandlesSource toks rest (handled ++ [tok.token]) (n + 1) [] := by
  have hr : tok.token :: rest.map PPToken.token = front ++ toks.drop n := h.rest
  cases front
  case cons tok' front =>
    have hf := h.front tok' <| .head _
    rw [←(List.cons.inj hr).left] at hf
    exact nomatch hf.symm.trans ht
  case nil =>
    have hd : toks.drop n = tok.token :: rest.map PPToken.token := hr.symm
    refine ⟨List.mem_of_mem_drop <| hd ▸ List.mem_cons_self, ?_, ?_, fun _ h => nomatch h⟩
    · rw [List.take_add, hd, List.filter_append, h.handled]
      simp [ht]
    · rw [←List.drop_drop, hd]
      rfl

-- The macros after a directive.
theorem handleDirective_macros {macros macros' : Macros} {frames frames' : List IfFrame} {text : String}
    (h : handleDirective macros frames fuel sp text = .done (.ok (macros', frames'))) :
    macros' = macros ∨ (∃ name, macros' = symbolMapDelete name macros) ∨
      defineMacro macros sp (parseDirective text).rest = .ok macros' := by
  have hmk {m : Macros} {f : List IfFrame} (h : (.done (.ok (m, f)) : Expand _) = .done (.ok (macros', frames'))) :
      macros' = m :=
    (Prod.mk.inj <| Except.ok.inj <| Fueled.done_inj.mp h).left.symm
  unfold handleDirective at h
  generalize parseDirective text = directive at h
  obtain ⟨name, rest⟩ := directive
  dsimp only at h
  split at h
  case h_1 =>
    split at h
    case isFalse => exact .inl <| hmk h
    case isTrue  =>
      have ⟨m, hd, h⟩ := liftM_bind_eq_done_ok.mp h
      exact .inr <| .inr <| hmk h ▸ hd
  case h_2 =>
    split at h
    case isFalse => exact .inl <| hmk h
    case isTrue  =>
      split at h
      case h_1 => exact .inr <| .inl ⟨_, hmk h⟩
      case h_2 => exact nomatch Fueled.done_inj.mp h
  case h_3 =>
    split at h
    case isTrue  => exact nomatch Fueled.done_inj.mp h
    case isFalse => exact .inl <| hmk h
  case h_4 | h_5 =>
    split at h
    case h_1 => exact .inl <| hmk h
    case h_2 => exact nomatch Fueled.done_inj.mp h
  case h_6 =>
    have ⟨_, _, h⟩ := Fueled.bind_eq_done_ok.mp h
    exact .inl <| hmk h
  case h_7 =>
    have ⟨_, _, h⟩ := Fueled.bind_eq_done_ok.mp h
    have ⟨_, _, h⟩ := liftM_bind_eq_done_ok.mp h
    exact .inl <| hmk h
  case h_8 | h_9 =>
    have ⟨_, _, h⟩ := liftM_bind_eq_done_ok.mp h
    exact .inl <| hmk h
  case h_10 => exact .inl <| hmk h
  case h_11 =>
    split at h
    case isTrue  => exact .inl <| hmk h
    case isFalse =>
      split at h
      case isTrue  => exact nomatch Fueled.done_inj.mp h
      case isFalse => exact .inl <| hmk h

theorem handleDirective_bodies {macros macros' : Macros} {frames frames' : List IfFrame} {text : String}
    (hm : BodiesAll (·.isDirective = false) macros) (hn : '\n' ∉ text.toList)
    (h : handleDirective macros frames fuel sp text = .done (.ok (macros', frames'))) :
    BodiesAll (·.isDirective = false) macros' := by
  rcases handleDirective_macros h with rfl | ⟨name, rfl⟩ | hd
  · exact hm
  · exact SymbolMap.All.delete hm
  · refine defineMacro_all hm (fun body toks hs hb => lexReplacement_plain (fun hm => hn ?_) hb) hd
    exact parseDirective_rest.subset <| hs.subset hm

-- Only the directives of the source are handled, in their order, if no paste forms a directive.
theorem preprocess_directives {bound fuel : Nat} {macros : Macros} {frames : List IfFrame} {acc : List PPToken}
    (hn : ∀ tok ∈ toks, ∀ text, tok.kind = .directive text → '\n' ∉ text.toList)
    (h : Reaches (fun m n rest => PlainInvocation m n rest ∧ PlainPastes m n rest) bound toks fuel macros frames
      rest acc handled) : ∃ n front, HandlesSource toks rest handled n front := by
  suffices BodiesAll (·.isDirective = false) macros ∧ ∃ n front, HandlesSource toks rest handled n front from this.right
  induction h
  case start =>
    exact ⟨SymbolMap.all_empty, 0, [], rfl, sourceFromTokens_tokens _ toks, nofun⟩
  case directive hk hd hi =>
    have ⟨hm, n, front, hs⟩ := hi
    have ⟨ht, hs⟩ := hs.handle (by simp [hk, TokenKind.isDirective])
    exact ⟨handleDirective_bodies hm (hn _ ht _ hk) hd, _, _, hs⟩
  case expand fuel macros frames tok rest acc handled expanded next trailing _ hd ha hc hx hi =>
    have ⟨hm, n, front, hs⟩ := hi
    refine ⟨hm, ?_⟩
    have hp : PrescansAll (·.isDirective = false) (expandSource macros fuel) (PastesSource PlainPaste macros fuel) :=
      fun hr hq h => expandSource_go_all plain_operators hm _ hr allKinds_nil hq h
    rcases expandNextSource_rescans plain_operators hp hm hc.left hc.right hx with
      ⟨_, rfl⟩ | ⟨_, replaced, rest', hr, hf⟩
    · exact hs.drop hd
    · have hk : ∀ tok ∈ replaced.map PPToken.token, tok.kind.isDirective = false := by
        simpa [AllKinds] using hr.kinds
      rcases hf with rfl | ⟨opening, inner, hv, rfl, ho⟩
      · exact hs.consume [tok] rfl (by simpa using hd) hk hr.tokens
      · refine hs.consume (tok :: opening :: inner) rfl ?_ hk hr.tokens
        have hin := hc.left _ _ hv
        simp_all [TokenKind.isDirective]
  case skip hd ha hi =>
    have ⟨hm, n, front, hs⟩ := hi
    exact ⟨hm, hs.drop hd⟩

end Directives

section Example

-- An invocation of the macro that pastes its arguments, after the definition of the macro.
def pasteSource (l r : TokenKind) : List Token :=
  [.directive "#define D(a,b) a##b", .ident "D", .punct "(", l, .punct ",", r, .punct ")"].map bareToken

def pasteMacro : Macro :=
  .function "D" ["a", "b"] none [⟨⟨⟨1, 19⟩, ⟨1, 20⟩⟩, .ident "a"⟩, ⟨⟨⟨1, 20⟩, ⟨1, 22⟩⟩, .punct "##"⟩,
    ⟨⟨⟨1, 22⟩, ⟨1, 23⟩⟩, .ident "b"⟩]

def pasteMacros : Macros :=
  symbolMapInsert "D" pasteMacro symbolMapEmpty

variable {condition : ExpandCondition} {l r : TokenKind}

theorem handleDirective_pasteMacro :
    handleDirective symbolMapEmpty [] n ⟨⟨1, 1⟩, ⟨1, 1⟩⟩ "#define D(a,b) a##b" = .done (.ok (pasteMacros, [])) := by
  have hd : parseDirective "#define D(a,b) a##b" = ⟨"define", "D(a,b) a##b".toList⟩ := by decide
  have hp : parseMacroDefinition ⟨⟨1, 1⟩, ⟨1, 1⟩⟩ "D(a,b) a##b".toList = .ok pasteMacro := by decide
  simp only [handleDirective, defineMacro, hd, hp]
  rfl

theorem plainInvocation_of_plain {rest : List PPToken} (h : ∀ tok ∈ rest, tok.token.kind.isDirective = false) :
    PlainInvocation macros n rest := by
  rintro inner rest' hi tok ht
  cases hi
  exact h tok <| by simp [ht]

theorem reaches_pasteMacro : Reaches condition 9 (pasteSource l r) 8 pasteMacros []
    (sourceFromTokens (pasteSource l r)).tail [] [bareToken (.directive "#define D(a,b) a##b")] :=
  have h : Reaches condition 9 (pasteSource l r) 9 symbolMapEmpty [] (sourceFromTokens (pasteSource l r)) [] [] := .start
  h.directive rfl handleDirective_pasteMacro

-- The paste of `#` and `#` is handled as a directive.
theorem preprocess_pastedDirective : ∃ fuel macros acc handled,
    Reaches PlainInvocation 9 (pasteSource (.punct "#") (.punct "#")) fuel macros [] [] acc handled ∧
      ¬∃ n front, HandlesSource (pasteSource (.punct "#") (.punct "#")) [] handled n front := by
  have hx : expandNextSource (expandSource pasteMacros 7) pasteMacros
      (sourceFromTokens (pasteSource (.punct "#") (.punct "#"))).tail =
        .done (.ok ([], [⟨["D"], false, bareToken (.directive "##")⟩], false)) := by
    have h : (expandNextSource (expandSource pasteMacros 7) pasteMacros
        (sourceFromTokens (pasteSource (.punct "#") (.punct "#"))).tail).run =
          some (.ok ([], [⟨["D"], false, bareToken (.directive "##")⟩], false)) := by decide
    exact h
  have hc : PlainInvocation pasteMacros 7 (sourceFromTokens (pasteSource (.punct "#") (.punct "#"))).tail :=
    plainInvocation_of_plain (by decide)
  have hd : handleDirective pasteMacros [] 6 ⟨⟨1, 1⟩, ⟨1, 1⟩⟩ "##" = .done (.ok (pasteMacros, [])) := by
    have h : parseDirective "##" = ⟨"", ['#']⟩ := by decide
    simp only [handleDirective, h]
    rfl
  have h := Reaches.directive (.expand reaches_pasteMacro rfl rfl hc hx) rfl hd
  refine ⟨_, _, _, _, h, fun ⟨n, front, hs⟩ => ?_⟩
  have hm : bareToken (.directive "##") ∈ pasteSource (.punct "#") (.punct "#") := by
    have hh := hs.handled ▸ List.mem_append_right _ (List.mem_singleton_self _)
    exact List.mem_of_mem_take (List.mem_filter.mp hh).left
  exact absurd hm (by decide)

theorem preprocess_directives_word : ∃ fuel macros rest acc handled,
    Reaches (fun m n rest => PlainInvocation m n rest ∧ PlainPastes m n rest) 9 (pasteSource (.ident "x") (.ident "y"))
      fuel macros [] rest acc handled ∧
        ∃ n front, HandlesSource (pasteSource (.ident "x") (.ident "y")) rest handled n front := by
  have hx : expandNextSource (expandSource pasteMacros 7) pasteMacros
      (sourceFromTokens (pasteSource (.ident "x") (.ident "y"))).tail =
        .done (.ok ([], [⟨["D"], false, bareToken (.ident "xy")⟩], false)) := by
    have h : (expandNextSource (expandSource pasteMacros 7) pasteMacros
        (sourceFromTokens (pasteSource (.ident "x") (.ident "y"))).tail).run =
          some (.ok ([], [⟨["D"], false, bareToken (.ident "xy")⟩], false)) := by decide
    exact h
  have hc : PlainInvocation pasteMacros 7 (sourceFromTokens (pasteSource (.ident "x") (.ident "y"))).tail :=
    plainInvocation_of_plain (by decide)
  have hp : PlainPastes pasteMacros 7 (sourceFromTokens (pasteSource (.ident "x") (.ident "y"))).tail := by
    rintro - key params variadic body hl args commas closeHidden rest' bound hc hb
    have hl' : symbolMapLookup "D" pasteMacros = some pasteMacro := by rfl
    obtain ⟨rfl, rfl, rfl, rfl⟩ := Macro.function.inj <| Option.some.inj <| hl'.symm.trans hl
    have hc' : collectInvocationArgs ⟨⟨1, 1⟩, ⟨1, 1⟩⟩ ((sourceFromTokens (pasteSource (.ident "x") (.ident "y"))).drop 3) =
        .ok ([[⟨[], false, bareToken (.ident "x")⟩], [⟨[], false, bareToken (.ident "y")⟩]],
          [⟨[], false, bareToken (.punct ",")⟩], [], []) := by decide
    obtain ⟨rfl, rfl, rfl, rfl⟩ := by simpa using hc'.symm.trans hc
    obtain rfl := Except.ok.inj hb
    refine ⟨fun l r hl hr => ?_, fun _ _ => trivial⟩
    obtain rfl := MacroPiece.token.inj <| Option.some.inj hl
    obtain rfl := MacroPiece.token.inj <| Option.some.inj hr
    intro tok ht
    have ht' : lexC "xy" = .ok [⟨⟨⟨1, 1⟩, ⟨1, 3⟩⟩, .ident "xy"⟩] := by decide
    obtain rfl := (List.cons.inj <| Except.ok.inj <| ht'.symm.trans ht).left
    rfl
  have hn : ∀ tok ∈ pasteSource (.ident "x") (.ident "y"), ∀ text, tok.kind = .directive text → '\n' ∉ text.toList := by
    simp [pasteSource, bareToken]
  have hh : ∃ tok, Reaches (fun m n rest => PlainInvocation m n rest ∧ PlainPastes m n rest) 9
      (pasteSource (.ident "x") (.ident "y")) 7 pasteMacros [] [tok] [] [bareToken (.directive "#define D(a,b) a##b")] :=
    ⟨_, .expand reaches_pasteMacro rfl rfl ⟨hc, hp⟩ hx⟩
  have ⟨_, h⟩ := hh
  exact ⟨_, _, _, _, _, h, preprocess_directives hn h⟩

end Example
end Hcc
