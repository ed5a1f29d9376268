import Hcc.ConstExpr.Theorems.Termination
import Hcc.ParseLite.Theorems.Progress
import Hcc.Parser.Program

namespace Hcc.Parser

variable {α β : Type} {p q : Parser α} {f : α → Parser β} {k j n fuel : Nat}

section Tokens

theorem failAt_advances {tok msg} : Advances k (failAt tok msg : Parser α) :=
  .fail

theorem advanceToken_advances : Advances k advanceToken :=
  .skip

theorem peek_halts : Halts k peek := by
  refine .bind .peek fun tok => ?_
  cases tok
  case none => exact Advances.fail.halts
  case some => exact .pure

theorem peekKind_halts : Halts k peekKind :=
  .bind .peek fun _ => .pure

theorem eat_halts {kind : TokenKind} : Halts k (eat kind) := by
  refine fun toks _ => .pRaw fun env a env' rest hr => ?_
  cases toks
  case nil => cases hr; exact le_rfl
  case cons tok toks =>
    dsimp only at hr
    split at hr <;> cases hr
    case isTrue  => exact Nat.le_succ _
    case isFalse => exact le_rfl

-- The branch for a token that is eaten starts with less tokens.
theorem eat_bind {kind : TokenKind} {f : Bool → Parser β}
    (ht : ∀ j, j < k → Halts j (f true)) (hf : Halts k (f false)) : Halts k (eat kind >>= f) := by
  intro toks hk env
  simp only [Bind.bind, P.bind, eat, pRaw, Option.bind_some]
  cases toks
  case nil => exact hf [] hk env
  case cons tok toks =>
    by_cases h : tok.kind = kind
    case pos =>
      obtain ⟨reply, hr, hn⟩ := (ht toks.length hk toks le_rfl).mono (Nat.le_succ _) env
      refine ⟨.consumed (forceConsumed reply), ?_, hn⟩
      simp only [h, if_true, hr, Option.map_eq_map, Option.map_some]
    case neg =>
      simp only [h, if_false]
      exact hf (tok :: toks) hk env

theorem eat_bind_advances {kind : TokenKind} {f : Bool → Parser β}
    (ht : ∀ j, j < k → Halts j (f true)) (hf : Advances k (f false)) :
    Advances k (eat kind >>= f) := by
  intro env toks hk
  simp only [Bind.bind, P.bind, eat, pRaw, Option.bind_some]
  cases toks
  case nil => exact hf env [] hk
  case cons tok toks =>
    by_cases h : tok.kind = kind
    case pos =>
      obtain ⟨reply, hr, hn⟩ := ht toks.length hk toks le_rfl env
      refine ⟨.consumed (forceConsumed reply), ?_, fun a e t h => Nat.lt_succ_of_le (hn a e t h)⟩
      simp only [h, if_true, hr, Option.map_eq_map, Option.map_some]
    case neg =>
      simp only [h, if_false]
      exact hf env (tok :: toks) hk

theorem needPunct_advances (s) : Advances k (needPunct s) :=
  eat_bind_advances (fun _ _ => .pure) <| peek_halts.bind_advances fun _ => .fail

theorem needIdent_advances : Advances k needIdent := by
  refine peek_halts.bind_advances fun tok => ?_
  split
  case h_1 => exact .bind .skip fun _ _ _ => .pure
  case h_2 => exact .fail

theorem optionalIdent_halts : Halts k optionalIdent := by
  refine peekKind_halts.bind fun kind => ?_
  split
  case h_1 => exact .bind Advances.skip.halts fun _ => .pure
  case h_2 => exact .pure

theorem lookupParserType_halts (name) : Halts k (lookupParserType name) := by
  refine .bind .pEnv fun env => ?_
  split <;> exact .pure

theorem lookupParserConstant_halts (name) : Halts k (lookupParserConstant name) := by
  refine .bind .pEnv fun env => ?_
  split <;> exact .pure

theorem bindParserName_halts (name binding) : Halts k (bindParserName name binding) := by
  unfold bindParserName
  split
  case isTrue  => exact .bind .pEnv fun _ => .pSetEnv
  case isFalse => exact .pure

theorem tokenStartsType_halts (tok) : Halts k (tokenStartsType tok) := by
  unfold tokenStartsType
  split
  case h_1 =>
    split
    case isTrue  => exact .pure
    case isFalse => exact .bind (lookupParserType_halts _) fun _ => .pure
  case h_2 => exact .pure

theorem nextStartsType_halts : Halts k nextStartsType := by
  refine .bind .peek fun tok => ?_
  cases tok
  case none => exact .pure
  case some => exact tokenStartsType_halts _

theorem skipBalanced_halts {opening closing depth} (hf : k < fuel) :
    Halts k (skipBalanced opening closing fuel depth) := by
  induction fuel generalizing k depth
  case zero => contradiction
  case succ fuel hi =>
    rw [skipBalanced]
    split
    case isTrue  => exact .pure
    case isFalse =>
      exact .bind peek_halts fun _ => Advances.halts <| .bind .skip fun _ _ _ => hi (by omega)

theorem skipOptionalBalancedParens_halts (hf : k ≤ fuel) :
    Halts k (skipOptionalBalancedParens fuel) :=
  eat_bind (fun _ _ => skipBalanced_halts (by omega)) .pure

theorem skipAttributes_halts (hf : k < fuel) : Halts k (skipAttributes fuel) := by
  induction fuel generalizing k
  case zero => contradiction
  case succ fuel hi =>
    rw [skipAttributes]
    refine .bind peekKind_halts fun kind => ?_
    split
    case h_1 =>
      split
      case isTrue =>
        refine Advances.halts <| .bind .skip fun _ _ _ => ?_
        exact .bind (skipOptionalBalancedParens_halts (by omega)) fun _ => hi (by omega)
      case isFalse =>
        split
        case isTrue  => exact Advances.halts <| .bind .skip fun _ _ _ => hi (by omega)
        case isFalse => exact .pure
    case h_2 => exact .pure

theorem peekKind_bind {f : Option TokenKind → Parser β} {toks : List Token} {m : Nat}
    (h : Returns (f (toks.head?.map Token.kind)) toks m) : Returns (peekKind >>= f) toks m :=
  h

-- Attributes are only skipped by the qualifiers if there are any, so they consume a token.
theorem skipAttributes_returns {name : String} {tok : Token} {toks : List Token}
    (hn : name ∈ ["__attribute__", "__extension__"]) (ht : tok.kind = .ident name)
    (hf : toks.length + 1 < fuel) : Returns (skipAttributes fuel) (tok :: toks) toks.length := by
  cases fuel
  case zero => contradiction
  case succ fuel =>
    rw [skipAttributes]
    refine peekKind_bind ?_
    simp only [List.head?_cons, Option.map_some, ht]
    split
    case isTrue =>
      refine Advances.returns (k := toks.length + 1) (.bind .skip fun _ _ _ => ?_) le_rfl
      exact .bind (skipOptionalBalancedParens_halts (by omega)) fun _ =>
        skipAttributes_halts (by omega)
    case isFalse h =>
      have hn : name = "__extension__" := by
        simp only [List.mem_cons, List.not_mem_nil, or_false] at hn
        rcases hn with rfl | rfl
        · simp at h
        · rfl
      rw [if_pos hn]
      refine Advances.returns (k := toks.length + 1) (.bind .skip fun _ _ _ => ?_) le_rfl
      exact skipAttributes_halts (by omega)

theorem skipQualifiers_halts (hf : k + 1 < fuel) : Halts k (skipQualifiers fuel) := by
  induction fuel generalizing k
  case zero => contradiction
  case succ fuel hi =>
    rw [skipQualifiers]
    intro toks hk
    refine peekKind_bind ?_
    split
    case h_1 name hname =>
      split
      case isTrue => exact (Halts.bind peek_halts fun _ => Advances.fail.halts) toks le_rfl
      case isFalse =>
        split
        case isTrue =>
          refine (Advances.halts (k := toks.length) <| .bind .skip fun _ _ _ => ?_) toks le_rfl
          exact hi (by omega)
        case isFalse =>
          split
          case isTrue ha =>
            obtain ⟨tok, toks, rfl⟩ : ∃ tok rest, toks = tok :: rest := by
              cases toks
              case nil  => cases hname
              case cons => exact ⟨_, _, rfl⟩
            have ht : tok.kind = .ident name := Option.some.inj hname
            simp only [List.length_cons] at hk
            refine (skipAttributes_returns ha ht (by omega)).bind fun _ rest hr => ?_
            exact (hi (k := rest.length) (by omega) rest le_rfl).mono (Nat.le_succ_of_le hr)
          case isFalse => exact .pure le_rfl
    case h_2 => exact .pure le_rfl

theorem pointerStars_halts {ty} (hf : k + 1 < fuel) : Halts k (pointerStars fuel ty) := by
  induction fuel generalizing k ty
  case zero => contradiction
  case succ fuel hi =>
    rw [pointerStars]
    refine eat_bind (fun j hj => ?_) .pure
    exact .bind (skipQualifiers_halts (by omega)) fun _ => hi (by omega)

end Tokens

-- The parsers of the grammar end and consume a token, on at most `k` tokens.
structure GrammarAdvances (g : Grammar) (k : Nat) : Prop where
  expression (minPrec) : Advances k (g.expression minPrec)
  ctype                : Advances k g.ctype
  parameters           : Advances k g.parameters

theorem GrammarAdvances.mono {g : Grammar} (h : GrammarAdvances g k) (hj : j ≤ k) :
    GrammarAdvances g j where
  expression minPrec := (h.expression minPrec).mono hj
  ctype              := h.ctype.mono hj
  parameters         := h.parameters.mono hj

section Expressions

variable {g : Grammar}

theorem typeName_advances (hg : GrammarAdvances g k) (hn : k + 1 < n) : Advances k (typeName g n) :=
  .bind hg.ctype fun _ _ _ => pointerStars_halts (by omega)

theorem arguments_advances (hg : GrammarAdvances g k) (hn : k < n) : Advances k (arguments g n) := by
  refine eat_bind_advances (fun _ _ => .pure) ?_
  refine .bind (hg.expression _) fun _ j hj => ?_
  refine .bind (.many (.bind (needPunct_advances _) fun _ i hi => ?_) (by omega)) fun _ => ?_
  · exact (hg.mono (by omega)).expression _ |>.halts
  · exact .bind (needPunct_advances _).halts fun _ => .pure

theorem postfixExpr_halts {base} (hg : ∀ j, j < k → GrammarAdvances g j) (hn : k < n)
    (hf : k < fuel) : Halts k (postfixExpr g n fuel base) := by
  induction fuel generalizing k base
  case zero => contradiction
  case succ fuel hi =>
    have hi {j base} (hj : j < k) : Halts j (postfixExpr g n fuel base) :=
      hi (fun i h => hg i (by omega)) (by omega) (by omega)
    rw [postfixExpr]
    refine .bind peekKind_halts fun kind => ?_
    split
    case h_1 =>
      refine Advances.halts <| .bind .skip fun _ j hj => ?_
      exact .bind (arguments_advances (hg j hj) (by omega)).halts fun _ => hi hj
    case h_2 =>
      refine Advances.halts <| .bind .skip fun _ j hj => ?_
      refine .bind ((hg j hj).expression _).halts fun _ => ?_
      exact .bind (needPunct_advances _).halts fun _ => hi hj
    case h_3 | h_4 =>
      refine Advances.halts <| .bind .skip fun _ j hj => ?_
      exact .bind needIdent_advances.halts fun _ => hi hj
    case h_5 | h_6 => exact Advances.halts <| .bind .skip fun _ _ hj => hi hj
    case h_7 => exact .pure

theorem sizeofParenExpr_advances (hg : GrammarAdvances g k) (hn : k < n) :
    Advances k (sizeofParenExpr g n) := by
  refine .bind (hg.expression _) fun _ j hj => .bind (needPunct_advances _).halts fun _ => ?_
  refine .bind (postfixExpr_halts (fun i hi => hg.mono ?_) (by omega) (by omega)) fun _ => .pure
  omega

theorem sizeofParen_advances (hg : GrammarAdvances g k) (hn : k + 1 < n) :
    Advances k (sizeofParen g n) := by
  have he := sizeofParenExpr_advances hg (Nat.lt_of_succ_lt hn)
  have ht : Advances k (typeName g n <* needPunct ")") :=
    .bind (typeName_advances hg hn) fun _ _ _ =>
      .bind (needPunct_advances _).halts fun _ => .pure
  intro env toks hk
  have ⟨reply, hr, hl⟩ := ht env toks hk
  simp only [sizeofParen, hr]
  split
  case h_1 =>
    split
    case isTrue =>
      split
      case h_1 ty env' rest hty =>
        split
        case isTrue  => exact he env _ hk
        case isFalse => exact ⟨_, rfl, fun a e t h => by cases h; exact hl _ _ _ hty⟩
      case h_2 => exact he env _ hk
    case isFalse => exact he env _ hk
  case h_2 => exact he env _ hk

theorem needString_advances : Advances k needString := by
  refine peek_halts.bind_advances fun tok => ?_
  split
  case h_1 => exact .bind .skip fun _ _ _ => .pure
  case h_2 => exact .fail

theorem stringLiteral_advances (hn : k < n) : Advances k (stringLiteral n) :=
  .bind needString_advances fun _ _ _ => .bind (.many needString_advances (by omega)) fun _ => .pure

theorem unary_advances (hg : ∀ j, j < k → GrammarAdvances g j) (hn : k + 1 < n) (hf : k < fuel) :
    Advances k (unary g n fuel) := by
  induction fuel generalizing k
  case zero => contradiction
  case succ fuel hi =>
    have ho {j} (hj : j < k) : Halts j (do postfixExpr g n n (← unary g n fuel) : Parser Expr) := by
      refine .bind (hi (fun i h => hg i (by omega)) (by omega) (by omega)).halts fun _ => ?_
      exact postfixExpr_halts (fun i h => hg i (by omega)) (by omega) (by omega)
    rw [unary]
    refine peek_halts.bind_advances fun tok => ?_
    split
    case h_1 =>
      refine .bind .skip fun _ j hj => .bind nextStartsType_halts fun b => ?_
      cases b
      case true =>
        refine .bind (typeName_advances (hg j hj) (by omega)).halts fun _ => ?_
        exact .bind (needPunct_advances _).halts fun _ => .bind (ho hj) fun _ => .pure
      case false =>
        refine .bind ((hg j hj).expression _).halts fun _ => ?_
        exact .bind (needPunct_advances _).halts fun _ => .pure
    case h_2 =>
      split
      case isTrue  => exact .bind .skip fun _ j hj => .bind (ho hj) fun _ => .pure
      case isFalse => exact .fail
    case h_3 =>
      refine .bind .skip fun _ j hj => eat_bind (fun i hi => ?_) (.bind (ho hj) fun _ => .pure)
      exact (sizeofParen_advances (hg i (by omega)) (by omega)).halts
    case h_4 | h_5 | h_6 => exact .bind .skip fun _ _ _ => .pure
    case h_7 => exact .bind (stringLiteral_advances (by omega)) fun _ _ _ => .pure
    case h_8 =>
      refine .bind .skip fun _ j hj => .bind (lookupParserConstant_halts _) fun value => ?_
      cases value <;> exact .pure
    case h_9 => exact .fail

theorem climb_halts {minPrec lhs} (hg : ∀ j, j < k → GrammarAdvances g j) (hf : k < fuel) :
    Halts k (climb g minPrec fuel lhs) := by
  induction fuel generalizing k lhs
  case zero => contradiction
  case succ fuel hi =>
    have hi {j lhs} (hj : j < k) : Halts j (climb g minPrec fuel lhs) :=
      hi (fun i h => hg i (by omega)) (by omega)
    rw [climb]
    refine .bind peekKind_halts fun kind => ?_
    split
    case h_1 =>
      split
      case isTrue =>
        refine Advances.halts <| .bind .skip fun _ j hj => ?_
        refine .bind ((hg j hj).expression _).halts fun _ => ?_
        refine .bind (needPunct_advances _).halts fun _ => ?_
        exact .bind ((hg j hj).expression _).halts fun _ => hi hj
      case isFalse =>
        split
        case h_1 =>
          split
          case isTrue =>
            refine Advances.halts <| .bind .skip fun _ j hj => ?_
            exact .bind ((hg j hj).expression _).halts fun _ => hi hj
          case isFalse => exact .pure
        case h_2 => exact .pure
    case h_2 => exact .pure

theorem expression_advances {minPrec} (hg : ∀ j, j < k → GrammarAdvances g j) (hn : k + 1 < n) :
    Advances k (Parser.expression g n minPrec) := by
  refine .bind (unary_advances hg hn (by omega)) fun _ j hj => ?_
  refine .bind (postfixExpr_halts (fun i h => hg i (by omega)) (by omega) (by omega)) fun _ => ?_
  exact climb_halts (fun i h => hg i (by omega)) (by omega)

theorem initializerExpr_advances (hg : GrammarAdvances g k) (hn : k < n) (hf : k < fuel) :
    Advances k (initializerExpr g n fuel) := by
  induction fuel generalizing k
  case zero => contradiction
  case succ fuel hi =>
    have hl {j m} (hj : j < k) (hm : j < m) :
        Halts j (initializerList (initializerExpr g n fuel) m) := by
      induction m generalizing j
      case zero => contradiction
      case succ m hl =>
        rw [initializerList]
        refine eat_bind (fun _ _ => .pure) ?_
        refine Advances.halts <| .bind (hi (hg.mono (by omega)) (by omega) (by omega)) ?_
        refine fun value i h => eat_bind (fun i' h' => ?_) ?_
        · exact eat_bind (fun _ _ => .pure) <| .bind (hl (by omega) (by omega)) fun _ => .pure
        · exact .bind (needPunct_advances _).halts fun _ => .pure
    rw [initializerExpr]
    refine eat_bind_advances (fun j hj => ?_) (hg.expression _)
    exact .bind (hl hj (by omega)) fun _ => .pure

end Expressions

section Declarators

variable {g : Grammar} {ty : CType}

theorem rejectArrayModifiers_halts (msg) : Halts k (rejectArrayModifiers msg) := by
  refine .bind peek_halts fun tok => ?_
  split
  case h_1 => split; exacts [Advances.fail.halts, .pure]
  case h_2 => exact .pure

theorem arraySuffixes_halts (hg : GrammarAdvances g k) (hf : k < fuel) :
    Halts k (arraySuffixes g fuel ty) := by
  induction fuel generalizing k ty
  case zero => contradiction
  case succ fuel hi =>
    rw [arraySuffixes]
    refine eat_bind (fun j hj => ?_) .pure
    have hg := hg.mono (Nat.le_of_lt hj)
    refine .bind (rejectArrayModifiers_halts _) fun _ => ?_
    refine .bind (Advances.halts (hg.expression _)).optional fun _ => ?_
    exact .bind (needPunct_advances _).halts fun _ => hi hg (by omega)

theorem optionalFunctionSuffix_halts (hg : GrammarAdvances g k) :
    Halts k (optionalFunctionSuffix g ty) :=
  eat_bind (fun _ hj => .bind (hg.parameters.mono (Nat.le_of_lt hj)).halts fun _ => .pure) .pure

theorem groupedDeclaratorSuffixes_halts (hg : GrammarAdvances g k) (hn : k < n) (hf : k < fuel) :
    Halts k (groupedDeclaratorSuffixes g n fuel ty) := by
  induction fuel generalizing k ty
  case zero => contradiction
  case succ fuel hi =>
    rw [groupedDeclaratorSuffixes]
    refine eat_bind (fun j hj => ?_) (arraySuffixes_halts hg hn)
    have hg := hg.mono (Nat.le_of_lt hj)
    exact .bind hg.parameters.halts fun _ => hi hg (by omega) (by omega)

theorem declarator_advances (hg : GrammarAdvances g k) (hn : k + 1 < n) (hf : k < fuel) :
    Advances k (declarator g n fuel ty) := by
  induction fuel generalizing k ty
  case zero => contradiction
  case succ fuel hi =>
    rw [declarator]
    refine (pointerStars_halts hn).bind_advances fun ty => ?_
    refine eat_bind_advances (fun j hj => ?_) ?_
    · have hg := hg.mono (Nat.le_of_lt hj)
      refine .bind (hi hg (by omega) (by omega)).halts fun _ => ?_
      refine .bind (needPunct_advances _).halts fun _ => ?_
      refine .bind (groupedDeclaratorSuffixes_halts hg (by omega) (by omega)) fun _ => ?_
      exact .bind (skipAttributes_halts (by omega)) fun _ => .pure
    · refine .bind needIdent_advances fun _ j hj => ?_
      refine .bind (arraySuffixes_halts (hg.mono (Nat.le_of_lt hj)) (by omega)) fun _ => ?_
      exact .bind (skipAttributes_halts (by omega)) fun _ => .pure

-- The parameters of an optional function suffix.
theorem fnParams_halts (hg : GrammarAdvances g k) (b : Bool) :
    Halts k (if b then g.parameters else Pure.pure []) := by
  cases b
  case true  => exact hg.parameters.halts
  case false => exact .pure

theorem fieldDeclarator_halts (hg : GrammarAdvances g k) (hn : k + 1 < n) :
    Halts k (fieldDeclarator g n ty) := by
  refine eat_bind (fun j hj => ?_) ?_
  · have hg := hg.mono (Nat.le_of_lt hj)
    refine .bind (pointerStars_halts (by omega)) fun _ => .bind optionalIdent_halts fun _ => ?_
    refine .bind (needPunct_advances _).halts fun _ => .bind eat_halts fun b => ?_
    refine .bind (fnParams_halts hg b) fun _ => ?_
    exact .bind (arraySuffixes_halts hg (by omega)) fun _ => .pure
  · refine .bind (pointerStars_halts hn) fun _ => .bind optionalIdent_halts fun _ => ?_
    refine eat_bind (fun j hj => ?_) ?_
    · exact .bind ((hg.mono (Nat.le_of_lt hj)).expression _).halts fun _ => .bind .pure fun _ => .pure
    · exact .bind (arraySuffixes_halts hg (by omega)) fun _ => .pure

theorem nextFieldDeclarator_advances (hg : GrammarAdvances g k) (hn : k + 1 < n) :
    Advances k (do needPunct ","; fieldDeclarator g n ty) :=
  .bind (needPunct_advances _) fun _ _ hj =>
    fieldDeclarator_halts (hg.mono (Nat.le_of_lt hj)) (by omega)

theorem fieldDeclarators_halts (hg : GrammarAdvances g k) (hn : k + 1 < n) :
    Halts k (fieldDeclarators g n ty) :=
  .bind (fieldDeclarator_halts hg hn) fun _ =>
    .bind (.many (nextFieldDeclarator_advances hg hn) (by omega)) fun _ => .pure

theorem fieldDecl_advances (hg : GrammarAdvances g k) (hn : k + 1 < n) :
    Advances k (fieldDecl g n) :=
  .bind hg.ctype fun _ _ hj =>
    .bind (fieldDeclarators_halts (hg.mono (Nat.le_of_lt hj)) (by omega)) fun _ =>
      .bind (needPunct_advances _).halts fun _ => .pure

theorem aggregateBodyAfterOpen_halts (hg : GrammarAdvances g k) (hn : k + 1 < n) :
    Halts k (aggregateBodyAfterOpen g n) :=
  .bind (.manyUntil eat_halts (fieldDecl_advances hg hn) (by omega)) fun _ => .pure

theorem aggregateType_advances {mkType mkNamed mkInline}
    (hg : ∀ j, j < k → GrammarAdvances g j) (hn : k + 1 < n) :
    Advances k (aggregateType g n mkType mkNamed mkInline) := by
  refine .bind .skip fun _ j hj => .bind optionalIdent_halts fun _ => ?_
  refine eat_bind (fun i hi => ?_) .pure
  exact .bind (aggregateBodyAfterOpen_halts (hg i (by omega)) (by omega)) fun _ => .pure

end Declarators

section Types

theorem takeEnumValueExprFrom_length (braces parens brackets acc toks) :
    (takeEnumValueExprFrom braces parens brackets acc toks).2.length ≤ toks.length := by
  fun_induction takeEnumValueExprFrom
  all_goals first | exact Nat.le_refl _ | exact Nat.le_succ_of_le ‹_›

theorem takeEnumValueExpr_halts : Halts k takeEnumValueExpr := by
  refine fun toks _ => .pRaw fun env a env' rest hr => ?_
  cases hr
  exact takeEnumValueExprFrom_length ..

theorem parseTypedConstExprTarget_isSome (bits env toks) :
    ∃ result, parseTypedConstExprTarget bits env toks = some result :=
  ((sufficient _).expression le_rfl).parseRest _

theorem enumValue_halts {nextValue} : Halts k (enumValue nextValue) := by
  have hf {k} {msg : String} : Halts k (do failAt (← peek) msg : Parser Constant) :=
    .bind peek_halts fun _ => Advances.fail.halts
  refine eat_bind (fun j hj => ?_) ?_
  · refine .bind takeEnumValueExpr_halts fun toks => .bind .pEnv fun env => ?_
    have ⟨result, hr⟩ := parseTypedConstExprTarget_isSome env.bits env.constants toks
    rw [hr]
    rcases result with msg | ⟨value, trailing⟩
    · exact hf
    · dsimp only
      split
      case isTrue  => exact .pure
      case isFalse =>
        cases trailing
        case nil  => exact hf
        case cons => exact Advances.fail.halts
  · cases nextValue
    case none => exact hf
    case some => exact .pure

theorem parseEnumBody_halts {nextValue} (hf : k < fuel) :
    Halts k (parseEnumBody fuel nextValue) := by
  induction fuel generalizing k nextValue
  case zero => contradiction
  case succ fuel hi =>
    rw [parseEnumBody]
    refine eat_bind (fun _ _ => .pure) <| eat_bind (fun _ _ => hi (by omega)) ?_
    refine .bind needIdent_advances.halts fun _ => .bind enumValue_halts fun _ => ?_
    refine .bind (bindParserName_halts _ _) fun _ => eat_bind (fun j hj => ?_) ?_
    · exact eat_bind (fun _ _ => .pure) <| hi (by omega)
    · exact (needPunct_advances _).halts

theorem enumType_advances (hn : k ≤ n) : Advances k (enumType n) := by
  refine .bind .skip fun _ j hj => .bind optionalIdent_halts fun _ => ?_
  exact eat_bind (fun _ _ => .bind (parseEnumBody_halts (by omega)) fun _ => .pure) .pure

theorem optionalInt_halts (ty) : Halts k (optionalInt ty) := by
  refine .bind peekKind_halts fun kind => ?_
  split
  case h_1 => exact .bind Advances.skip.halts fun _ => .pure
  case h_2 => exact .pure

theorem signedBaseType_halts : Halts k signedBaseType := by
  refine .bind peekKind_halts fun kind => ?_
  split
  case h_1 | h_3 => exact .bind Advances.skip.halts fun _ => .pure
  case h_2 => exact .bind Advances.skip.halts fun _ => optionalInt_halts _
  case h_4 => exact .pure

theorem unsignedLongTail_halts : Halts k unsignedLongTail := by
  refine .bind peekKind_halts fun kind => ?_
  split
  case h_1 => exact .bind Advances.skip.halts fun _ => optionalInt_halts _
  case h_2 => exact .bind Advances.skip.halts fun _ => .pure
  case h_3 => exact .pure

theorem unsignedBaseType_halts : Halts k unsignedBaseType := by
  refine .bind peekKind_halts fun kind => ?_
  split
  case h_1 | h_4 => exact .bind Advances.skip.halts fun _ => .pure
  case h_2 => exact .bind Advances.skip.halts fun _ => optionalInt_halts _
  case h_3 => exact .bind Advances.skip.halts fun _ => unsignedLongTail_halts
  case h_5 => exact .pure

theorem longBaseType_halts : Halts k longBaseType := by
  refine .bind peekKind_halts fun kind => ?_
  split
  case h_1 | h_2 => exact .bind Advances.skip.halts fun _ => .pure
  case h_3 => exact .bind Advances.skip.halts fun _ => optionalInt_halts _
  case h_4 => exact .pure

variable {g : Grammar}

theorem baseType_advances (hg : ∀ j, j < k → GrammarAdvances g j) (hn : k + 1 < n) :
    Advances k (baseType g n) := by
  refine peek_halts.bind_advances fun tok => ?_
  split
  case h_5 => exact .bind .skip fun _ _ _ => signedBaseType_halts
  case h_6 => exact .bind .skip fun _ _ _ => unsignedBaseType_halts
  case h_7 => exact .bind .skip fun _ _ _ => optionalInt_halts _
  case h_8 => exact .bind .skip fun _ _ _ => longBaseType_halts
  case h_11 | h_12 => exact aggregateType_advances hg hn
  case h_13 => exact enumType_advances (by omega)
  case h_14 => exact .bind .skip fun _ _ _ => .bind (lookupParserType_halts _) fun _ => .pure
  case h_15 => exact .fail
  all_goals exact .bind .skip fun _ _ _ => .pure

theorem ctype_advances (hg : ∀ j, j < k → GrammarAdvances g j) (hn : k + 1 < n) :
    Advances k (Parser.ctype g n) :=
  (skipQualifiers_halts hn).bind_advances fun _ =>
    .bind (baseType_advances hg hn) fun _ _ _ =>
      .bind (skipQualifiers_halts (by omega)) fun _ => .pure

end Types

section Parameters

variable {g : Grammar} {ty : CType}

theorem skipParameterArrayQualifiers_halts (hf : k < fuel) :
    Halts k (skipParameterArrayQualifiers fuel) := by
  induction fuel generalizing k
  case zero => contradiction
  case succ fuel hi =>
    rw [skipParameterArrayQualifiers]
    refine .bind peekKind_halts fun kind => ?_
    split
    case h_1 =>
      split
      case isTrue  => exact Advances.halts <| .bind .skip fun _ _ _ => hi (by omega)
      case isFalse => exact .pure
    case h_2 => exact .pure

theorem parameterArrayInner_halts (hg : GrammarAdvances g k) (hf : k < fuel) :
    Halts k (parameterArrayInner g fuel ty) := by
  induction fuel generalizing k ty
  case zero => contradiction
  case succ fuel hi =>
    rw [parameterArrayInner]
    refine eat_bind (fun j hj => ?_) .pure
    have hg := hg.mono (Nat.le_of_lt hj)
    refine .bind (rejectArrayModifiers_halts _) fun _ => ?_
    refine .bind (Advances.halts (hg.expression _)).optional fun _ => ?_
    refine .bind (needPunct_advances _).halts fun _ => ?_
    exact .bind (hi hg (by omega)) fun _ => .pure

theorem parameterArraySuffix_halts (hg : GrammarAdvances g k) (hn : k < n) :
    Halts k (parameterArraySuffix g n ty) := by
  refine eat_bind (fun j hj => ?_) .pure
  have hg := hg.mono (Nat.le_of_lt hj)
  refine .bind eat_halts fun staticFirst => ?_
  refine .bind (skipParameterArrayQualifiers_halts (by omega)) fun _ => ?_
  have hs : Halts j (if staticFirst then Pure.pure true else eatIdent "static") := by
    cases staticFirst
    case true  => exact .pure
    case false => exact eat_halts
  refine .bind hs fun isStatic => .bind (rejectArrayModifiers_halts _) fun _ => ?_
  have hb : Halts j (if isStatic then some <$> assignExpr g else pOptional (assignExpr g)) := by
    cases isStatic
    case true  => exact .bind (hg.expression _).halts fun _ => .pure
    case false => exact (Advances.halts (hg.expression _)).optional
  refine .bind hb fun _ => .bind (needPunct_advances _).halts fun _ => ?_
  exact .bind (parameterArrayInner_halts hg (by omega)) fun _ => .pure

theorem parameterDeclarator_halts (hg : GrammarAdvances g k) (hn : k + 1 < n) :
    Halts k (parameterDeclarator g n ty) := by
  refine eat_bind (fun j hj => ?_) ?_
  · have hg := hg.mono (Nat.le_of_lt hj)
    refine .bind (pointerStars_halts (by omega)) fun _ => .bind optionalIdent_halts fun _ => ?_
    refine .bind (needPunct_advances _).halts fun _ => .bind eat_halts fun b => ?_
    exact .bind (fnParams_halts hg b) fun _ => .pure
  · refine .bind (pointerStars_halts hn) fun _ => .bind optionalIdent_halts fun _ => ?_
    refine .bind eat_halts fun b => .bind (fnParams_halts hg b) fun _ => ?_
    exact .bind (parameterArraySuffix_halts hg (by omega)) fun _ => .pure

theorem parameter_advances (hc : Advances k g.ctype) (hg : ∀ j, j < k → GrammarAdvances g j)
    (hn : k + 1 < n) : Advances k (parameter g n) :=
  .bind hc fun _ j hj => .bind (parameterDeclarator_halts (hg j hj) (by omega)) fun _ =>
    .bind (bindParserName_halts _ _) fun _ => .pure

theorem parameterTail_halts (hg : ∀ j, j < k → GrammarAdvances g j) (hn : k + 1 < n)
    (hf : k < fuel) : Halts k (parameterTail g n fuel) := by
  induction fuel generalizing k
  case zero => contradiction
  case succ fuel hi =>
    rw [parameterTail]
    refine eat_bind (fun j hj => eat_bind (fun _ _ => .pure) ?_) .pure
    have hg' i (h : i < j) := hg i (by omega)
    refine .bind (parameter_advances (hg j hj).ctype hg' (by omega)).halts fun _ => ?_
    exact .bind (hi hg' (by omega) (by omega)) fun _ => .pure

theorem parameterVoidOnly_bind {p : Parser α} (hp : Advances k p) {a : α} :
    Advances k (do if ← parameterVoidOnly then return a else p) := by
  intro env toks hk
  simp only [Bind.bind, P.bind, parameterVoidOnly, pRaw, Option.bind_some]
  split
  case h_2 h =>
    split at h
    case h_1 => cases h
    case h_2 => cases h; exact hp env _ hk
  case h_4 h =>
    split at h
    case h_1 =>
      cases h
      exact ⟨_, rfl, fun a e t h => by cases h; simp only [List.length_cons]; omega⟩
    case h_2 => cases h
  all_goals
    rename_i h
    split at h <;> cases h

theorem parametersInScope_advances (hc : Advances k g.ctype)
    (hg : ∀ j, j < k → GrammarAdvances g j) (hn : k + 1 < n) :
    Advances k (parametersInScope g n) := by
  refine eat_bind_advances (fun _ _ => .pure) <| parameterVoidOnly_bind ?_
  refine .bind (parameter_advances hc hg hn) fun _ j hj => ?_
  refine .bind (parameterTail_halts (fun i h => hg i (by omega)) (by omega) (by omega)) fun _ => ?_
  exact .bind (needPunct_advances _).halts fun _ => .pure

theorem parameters_advances (hc : Advances k g.ctype)
    (hg : ∀ j, j < k → GrammarAdvances g j) (hn : k + 1 < n) :
    Advances k (Parser.parameters g n) :=
  .bind (Advances.local (parametersInScope_advances hc hg hn)) fun _ _ _ => .pure

end Parameters

-- Every nested call is for a shorter input, except that parameters start with a type.
theorem grammar_ends (fuel : Nat) :
    (∀ k minPrec, 2 * k + 3 ≤ fuel → Advances k ((grammar fuel).expression minPrec)) ∧
    (∀ k, 2 * k + 3 ≤ fuel → Advances k (grammar fuel).ctype) ∧
    (∀ k, 2 * k + 4 ≤ fuel → Advances k (grammar fuel).parameters) := by
  induction fuel
  case zero => exact ⟨by omega, by omega, by omega⟩
  case succ fuel hi =>
    have ⟨he, hc, hp⟩ := hi
    have hg {k} (hk : 2 * k + 3 ≤ fuel + 1) j (hj : j < k) : GrammarAdvances (grammar fuel) j :=
      ⟨fun p => he j p (by omega), hc j (by omega), hp j (by omega)⟩
    refine ⟨fun k p hk => ?_, fun k hk => ?_, fun k hk => ?_⟩
    · exact expression_advances (hg hk) (by omega)
    · exact ctype_advances (hg hk) (by omega)
    · exact parameters_advances (hc k (by omega)) (hg (by omega)) (by omega)

theorem grammar_advances (h : 2 * k + 4 ≤ n) : GrammarAdvances (grammar n) k :=
  have ⟨he, hc, hp⟩ := grammar_ends n
  ⟨fun p => he k p (by omega), hc k (by omega), hp k h⟩

end Hcc.Parser
