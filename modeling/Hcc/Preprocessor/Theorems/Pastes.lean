import Hcc.Preprocessor.Pastes
import Hcc.Preprocessor.Theorems.Expand

namespace Hcc

-- A property of tokens that is kept by the operators `#` and `##`, if the operands of `##` satisfy `Q`.
structure KeptByOperators (P : TokenKind → Prop) (Q : PPToken → PPToken → Prop) : Prop where
  stringify : (∀ tok ∈ toks, P tok.token.kind) → P (.string (stringifyTokens toks))
  paste     : P l.token.kind → P r.token.kind → Q l r →
    lexC (tokenText l.token.kind ++ tokenText r.token.kind) = .ok [tok] → P tok.kind

def AllKinds (P : TokenKind → Prop) (toks : List PPToken) : Prop :=
  ∀ tok ∈ toks, P tok.token.kind

def AllPieces (P : TokenKind → Prop) (pieces : List MacroPiece) : Prop :=
  ∀ tok, .token tok ∈ pieces → P tok.token.kind

-- The tokens of an argument, as they are spelled and after a prescan that is demanded.
structure ArgAll (P : TokenKind → Prop) (demand : MacroArg → Prop) (arg : MacroArg) : Prop where
  raw      : AllKinds P arg.raw
  expanded : demand arg → arg.expanded = .done (.ok e) → AllKinds P e.tokens

variable {P : TokenKind → Prop} {Q : PPToken → PPToken → Prop} {toks rest : List PPToken} {tok : PPToken}
variable {e : Expansion}

section Tokens

theorem allKinds_nil : AllKinds P [] :=
  fun _ h => nomatch h

theorem AllKinds.append (h₁ : AllKinds P toks) (h₂ : AllKinds P rest) : AllKinds P (toks ++ rest) :=
  List.forall_mem_append.mpr ⟨h₁, h₂⟩

theorem AllKinds.leadingSpace (h : AllKinds P toks) : AllKinds P (leadingSpace space toks) := by
  cases toks
  case nil  => exact h
  case cons => exact List.forall_mem_cons.mpr <| List.forall_mem_cons.mp h

theorem AllKinds.addLeadingSpace (h : AllKinds P toks) : AllKinds P (addLeadingSpace space toks) := by
  cases toks
  case nil  => exact h
  case cons => exact List.forall_mem_cons.mpr <| List.forall_mem_cons.mp h

theorem AllKinds.hideTokens (h : AllKinds P toks) : AllKinds P (toks.map (hideToken names)) := by
  simpa [AllKinds, hideToken] using h

theorem map_kind_sourceFromTokens (stop) (body : List Token) :
    (sourceFromTokens.go stop body).map (·.token.kind) = body.map Token.kind := by
  induction body generalizing stop <;> simp_all [sourceFromTokens.go]

theorem allKinds_replacementTokens {body : List Token} (h : ∀ tok ∈ body, P tok.kind) :
    AllKinds P (replacementTokens sp body) := by
  have hk : (replacementTokens sp body).map (·.token.kind) = body.map Token.kind := by
    rw [replacementTokens, List.map_map]
    exact map_kind_sourceFromTokens _ body
  intro tok ht
  have hm := List.mem_map_of_mem (f := (·.token.kind)) ht
  rw [hk] at hm
  have ⟨tok', ht', he⟩ := List.mem_map.mp hm
  exact he ▸ h tok' ht'

theorem AllKinds.sublist (h : AllKinds P rest) (hs : toks.Sublist rest) : AllKinds P toks :=
  fun tok ht => h tok <| hs.subset ht

end Tokens

section Pieces

variable {pieces previous next before acc : List MacroPiece}

theorem allPieces_nil : AllPieces P [] :=
  fun _ h => absurd h List.not_mem_nil

theorem AllPieces.append (h₁ : AllPieces P pieces) (h₂ : AllPieces P before) : AllPieces P (pieces ++ before) :=
  fun tok ht => (List.mem_append.mp ht).elim (h₁ tok) (h₂ tok)

theorem AllPieces.reverse (h : AllPieces P pieces) : AllPieces P pieces.reverse :=
  fun tok ht => h tok <| List.mem_reverse.mp ht

theorem AllPieces.cons_token (ht : P tok.token.kind) (h : AllPieces P pieces) : AllPieces P (.token tok :: pieces) := by
  rintro tok' (_ | ⟨_, h'⟩)
  · exact ht
  · exact h tok' h'

theorem AllPieces.cons_empty (h : AllPieces P pieces) : AllPieces P (.empty space :: pieces) := by
  rintro tok' (_ | ⟨_, h'⟩)
  exact h tok' h'

theorem AllPieces.mono (h : AllPieces P before) (hs : pieces ⊆ before) : AllPieces P pieces :=
  fun tok ht => h tok <| hs ht

theorem AllKinds.toPieces (h : AllKinds P toks) : AllPieces P (toks.map .token) := by
  intro tok ht
  have ⟨tok', ht', he⟩ := List.mem_map.mp ht
  exact MacroPiece.token.inj he ▸ h tok' ht'

theorem AllKinds.substitutionPieces (h : AllKinds P e.tokens) : AllPieces P (substitutionPieces space e) := by
  unfold Hcc.substitutionPieces
  split
  case h_1 => simp [AllPieces]
  case h_2 =>
    refine .append h.addLeadingSpace.toPieces ?_
    split <;> simp [AllPieces]

theorem removePlacemarkers_go_all {pending : Bool} (ht : AllKinds P toks) (h : AllPieces P pieces) :
    AllKinds P (removePlacemarkers.go pending toks pieces).tokens := by
  fun_induction removePlacemarkers.go
  case case1 => exact ht
  case case2 hi => exact hi ht fun tok hm => h tok <| .tail _ hm
  case case3 hi =>
    refine hi (ht.append <| AllKinds.addLeadingSpace ?_) fun tok hm => h tok <| .tail _ hm
    exact fun _ hm => List.mem_singleton.mp hm ▸ h _ (.head _)

theorem pastePieces_all {l r piece : MacroPiece} (hk : KeptByOperators P Q) (hl : AllPieces P [l]) (hr : AllPieces P [r])
    (hq : ∀ a b, l = .token a → r = .token b → Q a b) (h : pastePieces sp l r = .ok piece) : AllPieces P [piece] := by
  cases l <;> cases r <;> simp only [pastePieces] at h
  case token.token a b =>
    simp only [pasteTokens] at h
    split at h
    case h_1 tok hx =>
      cases h
      have ht : P tok.kind := hk.paste (hl a <| .head _) (hr b <| .head _) (hq a b rfl rfl) hx
      exact .cons_token ht allPieces_nil
    all_goals contradiction
  case token.empty => exact Except.ok.inj h ▸ hl
  case empty.token space tok =>
    have ht : P tok.token.kind := hr tok <| .head _
    exact Except.ok.inj h ▸ .cons_token ht allPieces_nil
  case empty.empty => exact Except.ok.inj h ▸ .cons_empty allPieces_nil

theorem pasteWithPrevious_all (hk : KeptByOperators P Q) (hp : AllPieces P previous) (hn : AllPieces P next)
    (hb : AllPieces P before) (hq : PastesPieces Q previous next)
    (h : pasteWithPrevious sp previous next before = .ok acc) : AllPieces P acc := by
  unfold pasteWithPrevious at h
  extract_lets paste at h
  have hpaste (h : paste = .ok acc) : AllPieces P acc := by
    simp only [paste] at h
    split at h
    case h_1 => exact Except.ok.inj h ▸ hp.reverse.append hb
    case h_2 => exact Except.ok.inj h ▸ hn.reverse.append hb
    case h_3 n ns _ _ =>
      split at h
      case h_2 => exact Except.ok.inj h ▸ hn.reverse.append hb
      case h_1 prev front hr =>
        cases hx : pastePieces sp prev n <;> rw [hx] at h
        case error => contradiction
        case ok pasted =>
          have hl : previous.getLast? = some prev := by rw [←List.head?_reverse, hr, List.head?_cons]
          have hq' := pastePieces_all hk (hp.mono <| by simp [List.mem_of_getLast? hl])
            (hn.mono <| by simp) (fun a b ha hb => hq a b (ha ▸ hl) (hb ▸ rfl)) hx
          have hns : AllPieces P ns := hn.mono <| List.subset_cons_self _ _
          have hf : AllPieces P front := hp.reverse.mono <| by simp [hr]
          exact Except.ok.inj h ▸ (hns.reverse.append <| hq'.append hf).append hb
  split at h
  case h_2 => exact hpaste h
  case h_1 tok =>
    split at h
    case isFalse => exact hpaste h
    case isTrue =>
      split at h
      case h_1 => exact Except.ok.inj h ▸ .cons_empty hb
      case h_2 => exact Except.ok.inj h ▸ hn.reverse.append (hp.append hb)

end Pieces

section Bodies

variable {demand : MacroArg → Prop} {body : List PPToken} {arg : MacroArg} {args : MacroArgs}
variable {previous acc : List MacroPiece}

theorem ArgAll.of_bound (h : args.All (ArgAll P demand)) (ha : boundArg args tok = some arg) : ArgAll P demand arg :=
  have ⟨_, hl⟩ := boundArg_lookup ha
  h.lookup hl

theorem rawPieces_all (h : args.All (ArgAll P demand)) (ht : P tok.token.kind) : AllPieces P (rawPieces args tok) := by
  unfold rawPieces
  split
  case h_1 ha => exact AllKinds.substitutionPieces (ArgAll.of_bound h ha).raw.leadingSpace
  case h_2    => exact .cons_token ht allPieces_nil

theorem pastesPieces_nil : PastesPieces Q previous [] :=
  fun _ _ _ h => nomatch h

theorem liftM_bind_eq_done_ok {x : Except PreprocessError α} {f : α → Expand β} :
    (liftM x >>= f : Expand β) = .done (.ok b) ↔ ∃ a, x = .ok a ∧ f a = .done (.ok b) := by
  rw [Fueled.liftM_eq_done, Fueled.bind_eq_done_ok]
  simp only [Fueled.done_inj]

theorem substituteMacroBody_go_all (hk : KeptByOperators P Q) (ha : args.All (ArgAll P demand)) (hb : AllKinds P body)
    (hc : AllPieces P acc) (hq : PastesBody Q args demand acc body)
    (h : substituteMacroBody.go args acc body = .done (.ok e)) : AllKinds P e.tokens := by
  fun_induction substituteMacroBody.go
  case case1 =>
    obtain rfl := Except.ok.inj <| Fueled.done_inj.mp h
    exact removePlacemarkers_go_all allKinds_nil hc.reverse
  case case2 hi => exact hi allKinds_nil (.cons_token (hb _ <| .head _) hc) trivial h
  case case3 acc tok hx next xs arg hn text hi =>
    obtain ⟨_, hb⟩ := List.forall_mem_cons.mp hb
    obtain ⟨_, hb⟩ := List.forall_mem_cons.mp hb
    unfold PastesBody at hq
    simp only [hx, hn] at hq
    exact hi hb (.cons_token (hk.stringify (ArgAll.of_bound ha hn).raw) hc) hq h
  case case4 acc tok hx next xs hn hi =>
    obtain ⟨ht, hb⟩ := List.forall_mem_cons.mp hb
    unfold PastesBody at hq
    simp only [hx, hn] at hq
    exact hi hb (.cons_token ht hc) hq h
  case case5 acc tok hx paste hi =>
    obtain ⟨acc', hp, h⟩ := liftM_bind_eq_done_ok.mp h
    have hc := pasteWithPrevious_all hk (hc.mono <| List.take_subset _ _) allPieces_nil
      (hc.mono <| List.tail_subset _) pastesPieces_nil hp
    exact hi acc' allKinds_nil hc trivial h
  case case6 acc tok hx paste next xs hi =>
    obtain ⟨_, hb⟩ := List.forall_mem_cons.mp hb
    obtain ⟨hn, hb⟩ := List.forall_mem_cons.mp hb
    obtain ⟨acc', hp, h⟩ := liftM_bind_eq_done_ok.mp h
    unfold PastesBody at hq
    simp only [hx] at hq
    have hc := pasteWithPrevious_all hk (hc.mono <| List.take_subset _ _) (rawPieces_all ha hn)
      (hc.mono <| List.tail_subset _) hq.left hp
    exact hi acc' hb hc (hq.right acc' hp) h
  case case7 acc tok xs hn h₁ h₂ hi =>
    obtain ⟨ht, hb⟩ := List.forall_mem_cons.mp hb
    unfold PastesBody at hq
    simp only [hn] at hq
    exact hi hb (.cons_token ht hc) hq h
  case case8 acc tok arg hn substitute h₁ h₂ hi =>
    obtain ⟨e', he, h⟩ := Fueled.bind_eq_done_ok.mp h
    unfold PastesBody at hq
    simp only [hn] at hq
    have hs : AllPieces P (substitutionPieces tok.space e') :=
      ((ArgAll.of_bound ha hn).expanded hq he).substitutionPieces
    exact hi e' allKinds_nil (hs.reverse.append hc) trivial h
  case case9 acc tok arg hn next hs paste h₁ h₂ hi =>
    obtain ⟨ht, _⟩ := List.forall_mem_cons.mp hb
    obtain ⟨acc', hp, h⟩ := liftM_bind_eq_done_ok.mp h
    have hc := pasteWithPrevious_all hk (rawPieces_all ha ht) allPieces_nil hc pastesPieces_nil hp
    exact hi acc' allKinds_nil hc trivial h
  case case10 acc tok arg hn next hs paste operand xs h₁ h₂ hi =>
    obtain ⟨ht, hb⟩ := List.forall_mem_cons.mp hb
    obtain ⟨_, hb⟩ := List.forall_mem_cons.mp hb
    obtain ⟨ho, hb⟩ := List.forall_mem_cons.mp hb
    obtain ⟨acc', hp, h⟩ := liftM_bind_eq_done_ok.mp h
    unfold PastesBody at hq
    simp only [hn, hs, if_true] at hq
    have hc := pasteWithPrevious_all hk (rawPieces_all ha ht) (rawPieces_all ha ho) hc hq.left hp
    exact hi acc' hb hc (hq.right acc' hp) h
  case case11 acc tok arg hn substitute next xs hs h₁ h₂ hi =>
    obtain ⟨_, hb⟩ := List.forall_mem_cons.mp hb
    obtain ⟨e', he, h⟩ := Fueled.bind_eq_done_ok.mp h
    unfold PastesBody at hq
    simp only [hn, hs, if_false] at hq
    have hp : AllPieces P (substitutionPieces tok.space e') :=
      ((ArgAll.of_bound ha hn).expanded hq.left he).substitutionPieces
    exact hi e' hb (hp.reverse.append hc) (hq.right e' he) h

end Bodies

section Steps

variable {macros : Macros} {prescan : List PPToken → Expand Expansion} {demand : List PPToken → Prop}
variable {original : PPToken} {expanded next inner commas : List PPToken} {args : List (List PPToken)}

def BodiesAll (P : TokenKind → Prop) (macros : Macros) : Prop :=
  macros.All fun m => ∀ tok ∈ macroBody m, P tok.kind

def PrescansAll (P : TokenKind → Prop) (prescan : List PPToken → Expand Expansion) (demand : List PPToken → Prop) : Prop :=
  ∀ {raw e}, AllKinds P raw → demand raw → prescan raw = .done (.ok e) → AllKinds P e.tokens

theorem map_token_addLeadingSpace {space : Bool} :
    (addLeadingSpace space toks).map PPToken.token = toks.map PPToken.token := by
  cases toks <;> rfl

-- The source after a replacement.
structure Rescans (P : TokenKind → Prop) (rest next : List PPToken) (replaced : List PPToken) : Prop where
  kinds  : AllKinds P replaced
  tokens : next.map PPToken.token = replaced.map PPToken.token ++ rest.map PPToken.token

theorem Rescans.all {replaced : List PPToken} (h : Rescans P rest next replaced) (hr : AllKinds P rest) :
    AllKinds P next := by
  have hk : next.map (·.token.kind) = (replaced ++ rest).map (·.token.kind) := by
    have h := congrArg (List.map Token.kind) h.tokens
    simpa [Function.comp_def] using h
  intro tok ht
  have hm := List.mem_map_of_mem (f := fun tok : PPToken => tok.token.kind) ht
  rw [hk] at hm
  have ⟨tok', ht', he⟩ := List.mem_map.mp hm
  exact he ▸ (h.kinds.append hr) tok' ht'

theorem rescanReplacement_rescans {space : Bool} (h : AllKinds P e.tokens)
    (hr : rescanReplacement space e rest = (expanded, toks, trailing)) :
    expanded = [] ∧ Rescans P rest toks e.tokens := by
  obtain ⟨rfl, rfl, rfl⟩ := hr
  exact ⟨rfl, h, by rw [List.map_append, map_token_addLeadingSpace, map_token_addLeadingSpace]⟩

theorem Invoked.prescanned (hi : Invoked (inner ++ rest) args commas closeHidden rest close) (h : AllKinds P inner)
    (hr : Prescanned args commas raw) : AllKinds P raw := by
  have hs : (joinVariadicArgs args commas).Sublist inner := by
    have h := hi.tokens
    rw [List.append_cons, List.append_left_inj] at h
    exact h ▸ List.sublist_append_left ..
  rcases hr with rfl | hr | ⟨n, hr⟩
  · exact allKinds_nil
  · exact h.sublist <| (hi.sublist (.inl hr) (n := 0)).trans hs
  · exact h.sublist <| (hi.sublist (.inr hr)).trans hs

theorem expandInvocation_rescans {body : List Token} (hk : KeptByOperators P Q) (hp : PrescansAll P prescan demand)
    (hb : ∀ tok ∈ body, P tok.kind)
    (hc : collectInvocationArgs original.token.span toks = .ok (args, commas, closeHidden, rest))
    (hi : ∀ inner, toks = inner ++ rest → AllKinds P inner)
    (hq : ∀ bound, bindMacroArgs prescan original.token.span params variadic args commas = .ok bound →
      PastesBody Q bound (fun arg => demand (leadingSpace false arg.raw)) []
        (leadingSpace original.space (replacementTokens original.token.span body)))
    (h : expandInvocation prescan original name params variadic body toks = .done (.ok (expanded, next, trailing))) :
    expanded = [] ∧ ∃ replaced, Rescans P rest next replaced := by
  simp only [expandInvocation, hc, Fueled.liftM_eq_done, Fueled.bind_eq_done_ok, Fueled.done_inj] at h
  have ⟨_, ha, bound, hb', e, he, hr⟩ := h
  obtain ⟨rfl, rfl, rfl, rfl⟩ := Except.ok.inj ha
  have ⟨close, hv⟩ := collectInvocationArgs_invoked hc
  have ht := hv.tokens
  rw [List.append_cons] at ht
  have hs : bound.All (ArgAll P fun arg => demand (leadingSpace false arg.raw)) := by
    refine bindMacroArgs_all (fun raw hr => ?_) hb'
    have hr := Invoked.prescanned (ht ▸ hv) (hi _ ht) hr
    exact ⟨hr, hp hr.leadingSpace⟩
  have ht := substituteMacroBody_go_all hk hs (allKinds_replacementTokens hb).leadingSpace allPieces_nil (hq bound hb') he
  have ⟨hx, hr⟩ := rescanReplacement_rescans (e := ⟨e.tokens.map (hideToken (name :: intersect original.hidden closeHidden)), e.trailing⟩)
    ht.hideTokens (Except.ok.inj <| Fueled.done_inj.mp hr)
  exact ⟨hx, _, hr⟩

-- One step of the expansion either passes on a token, or it replaces an invocation by tokens that have
-- the property.
theorem expandNextSource_rescans (hk : KeptByOperators P Q) (hp : PrescansAll P prescan demand) (hm : BodiesAll P macros)
    (hi : ∀ inner rest', Invokes macros (original :: rest) inner rest' → AllKinds P inner)
    (hq : PastesNext Q macros prescan demand (original :: rest))
    (h : expandNextSource prescan macros (original :: rest) = .done (.ok (expanded, next, trailing))) :
    (expanded = [original] ∧ next = rest) ∨ (expanded = [] ∧ ∃ replaced rest', Rescans P rest' next replaced ∧
      (rest' = rest ∨ ∃ opening inner, Invokes macros (original :: rest) inner rest' ∧
        rest = opening :: (inner ++ rest') ∧ opening.token.kind = .punct "(")) := by
  have hpass (h : (pure ([original], rest, false) : Expand _) = .done (.ok (expanded, next, trailing))) :
      expanded = [original] ∧ next = rest := by
    simp at h
    exact ⟨h.left.symm, h.right.left.symm⟩
  simp only [expandNextSource] at h
  split at h
  case h_2 => exact .inl <| hpass h
  case h_1 name hn =>
    split at h
    case isTrue  => exact .inl <| hpass h
    case isFalse hh =>
      split at h
      case h_1 => exact .inl <| hpass h
      case h_2 body hl =>
        have hb : AllKinds P (replacementTokens original.token.span body) := allKinds_replacementTokens (hm.lookup hl)
        obtain ⟨hx, hr⟩ := rescanReplacement_rescans
          (e := ⟨(leadingSpace original.space (replacementTokens original.token.span body)).map
            (hideToken (name :: original.hidden)), false⟩)
          hb.leadingSpace.hideTokens (Except.ok.inj <| Fueled.done_inj.mp h)
        exact .inr ⟨hx, _, rest, hr, .inl rfl⟩
      case h_3 key params variadic body hl =>
        split at h
        case h_2 => exact .inl <| hpass h
        case h_1 hidden space s afterOpen =>
          cases hc : collectInvocationArgs original.token.span afterOpen
          case error => simp [expandInvocation, hc] at h
          case ok invocation =>
            obtain ⟨args, commas, closeHidden, rest'⟩ := invocation
            obtain ⟨close, hv⟩ := collectInvocationArgs_invoked hc
            have ht : afterOpen = (joinVariadicArgs args commas ++ [close]) ++ rest' := by
              rw [hv.tokens, List.append_cons]
            have hx {inner} (h : afterOpen = inner ++ rest') :
                Invokes macros (original :: ⟨hidden, space, ⟨s, .punct "("⟩⟩ :: afterOpen) inner rest' :=
              h ▸ .mk hn hh hl rfl (h ▸ hc)
            simp only [PastesNext, hn] at hq
            obtain ⟨he, replaced, hr⟩ := expandInvocation_rescans hk hp (hm.lookup hl) hc (fun _ ht => hi _ _ <| hx ht)
              (hq hh _ _ _ _ hl _ _ _ _ · hc) h
            exact .inr ⟨he, replaced, rest', hr, .inr ⟨_, _, hx ht, congrArg _ ht, rfl⟩⟩

-- The expansion of tokens that have the property.
theorem expandSource_go_all (hk : KeptByOperators P Q) (hm : BodiesAll P macros) (fuel : Nat) :
    ∀ {rest acc trailing e}, AllKinds P rest → AllKinds P acc → PastesSource Q macros fuel rest →
      expandSource.go macros fuel rest trailing acc = .done (.ok e) → AllKinds P e.tokens := by
  induction fuel
  case zero => exact fun _ _ _ h => nomatch h
  case succ fuel hi =>
    intro rest acc trailing e hr ha hq h
    cases rest
    case nil =>
      obtain rfl := Except.ok.inj <| Fueled.done_inj.mp h
      exact ha
    case cons original rest =>
      have ⟨⟨expanded, next, trailing'⟩, hx, hg⟩ := Fueled.bind_eq_done_ok.mp h
      have ⟨hn, hs⟩ := hq
      have ⟨ho, hr⟩ := List.forall_mem_cons.mp hr
      have hp : PrescansAll P (expandSource.go macros fuel · false []) (PastesSource Q macros fuel) :=
        fun hr hd h => hi hr allKinds_nil hd h
      have hin : ∀ inner rest', Invokes macros (original :: rest) inner rest' → AllKinds P inner := by
        rintro inner rest' ⟨⟩
        exact (List.forall_mem_append.mp (List.forall_mem_cons.mp hr).right).left
      rcases expandNextSource_rescans hk hp hm hin hn hx with ⟨rfl, rfl⟩ | ⟨rfl, replaced, rest', hc, hf⟩
      · refine hi hr (ha.append ?_) (hs _ _ _ hx) hg
        exact fun _ ht => List.mem_singleton.mp ht ▸ ho
      · have hr' : AllKinds P rest' := by
          rcases hf with rfl | ⟨opening, inner, _, rfl, _⟩
          · exact hr
          · exact (List.forall_mem_append.mp (List.forall_mem_cons.mp hr).right).right
        exact hi (hc.all hr') (ha.append allKinds_nil) (hs _ _ _ hx) hg

end Steps
end Hcc
