import Hcc.Lexer.Theorems.Spelling
import Hcc.Preprocessor.Theorems.Provenance

namespace Hcc

-- Tokens that are spelled without a newline are lexed from their spelling.
def Respelled (k : TokenKind) : Prop :=
  '\n' ∉ (tokenText k).toList → Spelled k

section Operators

theorem literalBody_escapeString (h : '\n' ∉ s) : LiteralBody '"' (escapeString s) := by
  fun_induction escapeString
  case case1             => exact .nil
  case case2 hi          => exact .escape <| hi (List.not_mem_of_not_mem_cons h)
  case case3 hi          => exact .escape <| hi (List.not_mem_of_not_mem_cons h)
  case case4 c cs hs hq hi =>
    have hn : c ≠ '\n' := fun hc => h <| hc ▸ .head _
    exact .char hq hs hn <| hi (List.not_mem_of_not_mem_cons h)

theorem mem_escapeString (h : c ∈ s) : c ∈ escapeString s := by
  fun_induction escapeString <;> simp_all
  all_goals tauto

theorem respelled_operators : KeptByOperators Respelled fun _ _ => True where
  stringify {toks} _ hn := by
    have ht : (stringifyTokens toks).toList = '"' :: (escapeString (sourceSpelling toks).toList ++ ['"']) := by
      simp [stringifyTokens]
    refine ⟨_, ht, literalBody_escapeString fun hm => hn ?_⟩
    rw [tokenText, ht]
    exact .tail _ <| List.mem_append_left _ <| mem_escapeString hm
  paste _ _ _ hx _ := lexC_spelled hx _ <| .head _

end Operators

section Runs

variable {P : TokenKind → Prop} {macros : Macros} {demand : MacroArg → Prop}

theorem pastesBody_trivial (hd : ∀ arg, demand arg) : PastesBody (fun _ _ => True) args demand acc body := by
  have hp {previous next} : PastesPieces (fun _ _ => True) previous next := fun _ _ _ _ => trivial
  fun_induction PastesBody <;> simp_all

theorem pastesNext_trivial {prescan : List PPToken → Expand Expansion} {demand : List PPToken → Prop}
    (hd : ∀ raw, demand raw) : PastesNext (fun _ _ => True) macros prescan demand rest := by
  unfold PastesNext
  split
  case h_1 => trivial
  case h_2 =>
    split
    case h_1 => exact fun _ _ _ _ _ _ _ _ _ _ _ _ _ => pastesBody_trivial fun _ => hd _
    case h_2 => trivial

theorem pastesSource_trivial (fuel : Nat) : PastesSource (fun _ _ => True) macros fuel rest := by
  induction fuel generalizing rest
  case zero => trivial
  case succ hi => exact ⟨pastesNext_trivial fun _ => hi, fun _ _ _ _ => hi⟩

-- The property holds for every token that is lexed.
def LexesAll (P : TokenKind → Prop) : Prop :=
  ∀ {source toks}, lexC source = .ok toks → ∀ tok ∈ toks, P tok.kind

theorem LexesAll.replacement (hx : LexesAll P) (h : lexReplacement sp text = .ok toks) : ∀ tok ∈ toks, P tok.kind := by
  simp only [lexReplacement] at h
  split at h
  case h_1    => contradiction
  case h_2 hl => exact fun tok ht => hx hl tok <| .tail _ <| Except.ok.inj h ▸ ht
  case h_3    => exact Except.ok.inj h ▸ List.forall_mem_nil _

theorem LexesAll.handleDirective {macros' : Macros} {frames' : List IfFrame} (hx : LexesAll P) (hm : BodiesAll P macros)
    (h : handleDirective macros frames fuel sp text = .done (.ok (macros', frames'))) : BodiesAll P macros' := by
  rcases handleDirective_macros h with rfl | ⟨name, rfl⟩ | hd
  · exact hm
  · exact SymbolMap.All.delete hm
  · exact defineMacro_all hm (fun _ _ _ hb => hx.replacement hb) hd

theorem expandNextSource_all {original : PPToken} {expanded next : List PPToken} (hk : KeptByOperators P fun _ _ => True)
    (hm : BodiesAll P macros) (hr : AllKinds P (original :: rest))
    (h : expandNextSource (expandSource macros fuel) macros (original :: rest) = .done (.ok (expanded, next, trailing))) :
    AllKinds P expanded ∧ AllKinds P next := by
  have ⟨ho, hr'⟩ := List.forall_mem_cons.mp hr
  have hp : PrescansAll P (expandSource macros fuel) (PastesSource (fun _ _ => True) macros fuel) :=
    fun hr _ h => expandSource_go_all hk hm _ hr allKinds_nil (pastesSource_trivial _) h
  have hi : ∀ inner rest', Invokes macros (original :: rest) inner rest' → AllKinds P inner := by
    rintro inner rest' ⟨⟩
    exact (List.forall_mem_append.mp (List.forall_mem_cons.mp hr').right).left
  rcases expandNextSource_rescans hk hp hm hi (pastesNext_trivial fun _ => pastesSource_trivial _) h with
    ⟨rfl, rfl⟩ | ⟨rfl, replaced, rest', hc, hf⟩
  · exact ⟨by simpa [AllKinds] using ho, hr'⟩
  · refine ⟨allKinds_nil, hc.all ?_⟩
    rcases hf with rfl | ⟨opening, inner, _, rfl, _⟩
    · exact hr'
    · exact (List.forall_mem_append.mp (List.forall_mem_cons.mp hr').right).right

-- The tokens of a program that is preprocessed have a property, if every token that is lexed has it, and
-- the operators in the bodies of macros keep it.
theorem preprocess_go_all (hk : KeptByOperators P fun _ _ => True) (hx : LexesAll P) (hm : BodiesAll P macros)
    (hr : AllKinds P rest) (ha : AllKinds P acc) (h : preprocess.go fuel macros frames rest acc = .done (.ok out)) :
    ∀ tok ∈ out, P tok.kind := by
  induction fuel generalizing macros frames rest acc
  case zero => contradiction
  case succ fuel hi =>
    cases rest
    case nil =>
      simp only [preprocess.go] at h
      split at h
      case isFalse => cases Fueled.done_inj.mp h
      case isTrue  =>
        obtain rfl := Except.ok.inj <| Fueled.done_inj.mp h
        simpa [AllKinds] using ha
    case cons tok rest =>
      have hr' := (List.forall_mem_cons.mp hr).right
      cases hn : tok.token.kind.isDirective
      case true =>
        cases hd : tok.token.kind
        case directive text =>
          simp only [preprocess.go, hd] at h
          obtain ⟨⟨macros', frames'⟩, hd, h⟩ := Fueled.bind_eq_done_ok.mp h
          exact hi (hx.handleDirective hm hd) hr' ha h
        all_goals simp [hd, TokenKind.isDirective] at hn
      case false =>
        rw [preprocess_go_token hn] at h
        split at h
        case isFalse => exact hi hm hr' ha h
        case isTrue  =>
          obtain ⟨⟨expanded, next, trailing⟩, he, h⟩ := Fueled.bind_eq_done_ok.mp h
          obtain ⟨he, hn⟩ := expandNextSource_all hk hm hr he
          exact hi hm hn (ha.append he) h

theorem preprocess_respelled (hx : lexC source = .ok toks) (h : preprocess fuel toks = .done (.ok out)) :
    ∀ tok ∈ out, Respelled tok.kind := by
  have hl : LexesAll Respelled := fun h tok ht _ => lexC_spelled h tok ht
  have hs : AllKinds Respelled (sourceFromTokens toks) := fun tok ht => by
    have hm : tok.token ∈ toks :=
      sourceFromTokens_tokens _ toks ▸ List.mem_map_of_mem ht
    exact hl hx _ hm
  exact preprocess_go_all respelled_operators hl SymbolMap.all_empty hs allKinds_nil h

end Runs
end Hcc
