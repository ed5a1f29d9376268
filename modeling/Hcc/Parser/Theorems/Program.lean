import Hcc.Parser.Theorems.Progress

namespace Hcc.Parser

variable {α : Type} {g : Grammar} {ty : CType} {k j n fuel : Nat}

section Declarations

theorem needIdentValue_advances (expected) : Advances k (needIdentValue expected) := by
  refine peek_halts.bind_advances fun tok => ?_
  split
  case h_1 => split; exacts [.skip, .fail]
  case h_2 => exact .fail

theorem bindTypedef_halts (item) : Halts k (bindTypedef item) := by
  unfold bindTypedef
  split
  case isTrue  => exact .pure
  case isFalse => exact bindParserName_halts _ _

theorem typedefItem_advances (hg : GrammarAdvances g k) (hn : k + 1 < n) :
    Advances k (typedefItem g n ty) := by
  refine .bind (declarator_advances hg hn (by omega)) fun _ j hj => ?_
  refine .bind (optionalFunctionSuffix_halts (hg.mono (Nat.le_of_lt hj))) fun _ => ?_
  refine .bind (skipAttributes_halts (by omega)) fun _ => ?_
  exact .bind (bindTypedef_halts _) fun _ => .pure

theorem initializer_advances (hg : GrammarAdvances g k) (hn : k < n) :
    Advances k (do let _ ← eatPunct "="; initializerExpr g n n) :=
  eat_halts.bind_advances fun _ => initializerExpr_advances hg hn hn

theorem declarationItem_advances (hg : GrammarAdvances g k) (hn : k + 1 < n) :
    Advances k (declarationItem g n ty) := by
  refine .bind (declarator_advances hg hn (by omega)) fun _ j hj => ?_
  refine .bind (skipAttributes_halts (by omega)) fun _ => .bind (bindParserName_halts _ _) fun _ => ?_
  have hi := initializer_advances (n := n) (hg.mono (Nat.le_of_lt hj)) (by omega)
  exact .bind hi.halts.optional fun _ => .pure

theorem typedefItemsTail_advances (hg : GrammarAdvances g k) (hn : k + 1 < n) (hf : k < fuel) :
    Advances k (typedefItemsTail g n ty fuel) := by
  induction fuel generalizing k
  case zero => contradiction
  case succ fuel hi =>
    rw [typedefItemsTail]
    refine eat_bind_advances (fun _ _ => .pure) <| .bind (needPunct_advances _) fun _ j hj => ?_
    have hg := hg.mono (Nat.le_of_lt hj)
    refine .bind (typedefItem_advances hg (by omega)).halts fun _ => ?_
    exact .bind (hi hg (by omega) (by omega)).halts fun _ => .pure

theorem declarationItemsTail_advances (hg : GrammarAdvances g k) (hn : k + 1 < n) (hf : k < fuel) :
    Advances k (declarationItemsTail g n ty fuel) := by
  induction fuel generalizing k
  case zero => contradiction
  case succ fuel hi =>
    rw [declarationItemsTail]
    refine eat_bind_advances (fun _ _ => .pure) <| .bind (needPunct_advances _) fun _ j hj => ?_
    have hg := hg.mono (Nat.le_of_lt hj)
    refine .bind (declarationItem_advances hg (by omega)).halts fun _ => ?_
    exact .bind (hi hg (by omega) (by omega)).halts fun _ => .pure

theorem typedefDecl_advances (hg : GrammarAdvances g k) (hn : k + 1 < n) :
    Advances k (typedefDecl g n) := by
  refine .bind hg.ctype fun _ j hj => ?_
  have hg := hg.mono (Nat.le_of_lt hj)
  refine .bind (typedefItem_advances hg (by omega)).halts fun _ => ?_
  exact .bind (typedefItemsTail_advances hg (by omega) (by omega)).halts fun _ => .pure

theorem localPrototype_advances (hg : GrammarAdvances g k) (hn : k + 1 < n) :
    Advances k (localPrototype g n ty) := by
  refine (pointerStars_halts hn).bind_advances fun _ => .bind needIdent_advances fun _ j hj => ?_
  refine .bind (needPunct_advances _).halts fun _ => ?_
  refine .bind (hg.mono (Nat.le_of_lt hj)).parameters.halts fun _ => ?_
  refine .bind (skipAttributes_halts (by omega)) fun _ => .bind (bindParserName_halts _ _) fun _ => ?_
  exact (needPunct_advances _).halts

theorem declarationItems_halts (hg : GrammarAdvances g k) (hn : k + 1 < n) {f : List Decl → α} :
    Halts k (do
      let first ← declarationItem g n ty
      let rest ← declarationItemsTail g n ty n
      return f (first :: rest) : Parser α) :=
  .bind (declarationItem_advances hg hn).halts fun _ =>
    .bind (declarationItemsTail_advances hg hn (by omega)).halts fun _ => .pure

theorem parseDeclStmt_advances (hg : GrammarAdvances g k) (hn : k + 1 < n) :
    Advances k (parseDeclStmt g n) := by
  refine .bind hg.ctype fun _ j hj => eat_bind (fun _ _ => .pure) ?_
  have hg := hg.mono (Nat.le_of_lt hj)
  refine .bind (localPrototype_advances hg (by omega)).halts.try.optional fun prototype => ?_
  cases prototype
  case none => exact declarationItems_halts hg (by omega)
  case some => exact .pure

end Declarations

section Statements

theorem parseExprStmt_advances (hg : GrammarAdvances g k) : Advances k (parseExprStmt g) :=
  .bind (hg.expression _) fun _ _ _ => .bind (needPunct_advances _).halts fun _ => .pure

theorem parseGoto_halts : Halts k parseGoto :=
  .bind needIdent_advances.halts fun _ => .bind (needPunct_advances _).halts fun _ => .pure

theorem parseReturn_halts (hg : GrammarAdvances g k) : Halts k (parseReturn g) := by
  refine eat_bind (fun _ _ => .pure) <| .bind (hg.expression _).halts fun _ => ?_
  exact .bind (needPunct_advances _).halts fun _ => .pure

theorem parseCase_halts (hg : GrammarAdvances g k) : Halts k (parseCase g) :=
  .bind (hg.expression _).halts fun _ => .bind (needPunct_advances _).halts fun _ => .pure

theorem optionalExprUntil_halts (hg : GrammarAdvances g k) (punct) :
    Halts k (optionalExprUntil g punct) := by
  refine eat_bind (fun _ _ => .pure) <| .bind (hg.expression _).halts fun _ => ?_
  exact .bind (needPunct_advances _).halts fun _ => .pure

theorem forInit_halts (hg : GrammarAdvances g k) (hn : k + 1 < n) : Halts k (forInit g n) := by
  refine eat_bind (fun _ _ => .pure) <| .bind peek_halts fun tok => ?_
  refine .bind (tokenStartsType_halts tok) fun b => ?_
  cases b
  case true  => exact .bind hg.ctype.halts fun _ => declarationItems_halts hg hn
  case false =>
    exact .bind (hg.expression _).halts fun _ => .bind (needPunct_advances _).halts fun _ => .pure

variable {s : Parser Stmt}

theorem compound_advances (hs : ∀ j, j < k → Advances j s) (hn : k < n) :
    Advances k (compound n s) :=
  .bind (needPunct_advances _) fun _ j hj => .local <| .manyUntil eat_halts (hs j hj) (by omega)

theorem stmtAsBlock_advances (hs : Advances k s) (hn : k < n) : Advances k (stmtAsBlock n s) := by
  refine .local <| peek_halts.bind_advances fun tok => ?_
  split
  case h_1 =>
    exact .bind (compound_advances (fun _ hj => hs.mono (Nat.le_of_lt hj)) hn) fun _ _ _ => .pure
  case h_2 =>
    refine .bind hs fun first j hj => ?_
    split
    case h_1 => exact .bind (hs.mono (Nat.le_of_lt hj)).halts fun _ => .pure
    case h_2 => exact .pure

-- The condition in parentheses after a keyword, and the statement that it controls.
theorem controlled_halts (hg : GrammarAdvances g k) {p : Expr → Parser α} (hp : ∀ e, Halts k (p e)) :
    Halts k (do needPunct "("; let cond ← expr g; needPunct ")"; p cond : Parser α) := by
  refine .bind (needPunct_advances _).halts fun _ => .bind (hg.expression _).halts fun cond => ?_
  exact .bind (needPunct_advances _).halts fun _ => hp cond

theorem parseIf_halts (hg : GrammarAdvances g k) (hs : Advances k s) (hn : k < n) :
    Halts k (parseIf g n s) := by
  refine .local <| controlled_halts hg fun _ => .bind (stmtAsBlock_advances hs hn).halts fun _ => ?_
  refine .bind eat_halts fun b => ?_
  cases b
  case true  => exact .bind (stmtAsBlock_advances hs hn).halts fun _ => .pure
  case false => exact .bind .pure fun _ => .pure

theorem parseWhile_halts (hg : GrammarAdvances g k) (hs : Advances k s) (hn : k < n) :
    Halts k (parseWhile g n s) :=
  .local <| controlled_halts hg fun _ => .bind (stmtAsBlock_advances hs hn).halts fun _ => .pure

theorem parseSwitch_halts (hg : GrammarAdvances g k) (hs : Advances k s) (hn : k < n) :
    Halts k (parseSwitch g n s) :=
  .local <| controlled_halts hg fun _ => .bind (stmtAsBlock_advances hs hn).halts fun _ => .pure

theorem parseDoWhile_halts (hg : GrammarAdvances g k) (hs : Advances k s) (hn : k < n) :
    Halts k (parseDoWhile g n s) := by
  refine .local <| .bind (stmtAsBlock_advances hs hn).halts fun _ => ?_
  refine .bind (needIdentValue_advances _).halts fun _ => controlled_halts hg fun _ => ?_
  exact .bind (needPunct_advances _).halts fun _ => .pure

theorem parseFor_halts (hg : GrammarAdvances g k) (hs : Advances k s) (hn : k + 1 < n) :
    Halts k (parseFor g n s) := by
  refine .local <| .bind (needPunct_advances _).halts fun _ => .bind (forInit_halts hg hn) fun _ => ?_
  refine .bind (optionalExprUntil_halts hg _) fun _ => ?_
  refine .bind (optionalExprUntil_halts hg _) fun _ => ?_
  exact .bind (stmtAsBlock_advances hs (by omega)).halts fun _ => .pure

theorem peekSecondPunct_halts (punct) : Halts k (peekSecondPunct punct) := by
  refine fun toks _ => .pRaw fun env a env' rest hr => ?_
  split at hr <;> cases hr <;> exact le_rfl

theorem identifierStartsDeclaration_halts : Halts k identifierStartsDeclaration := by
  refine fun toks _ => .pRaw fun env a env' rest hr => ?_
  split at hr <;> cases hr <;> exact le_rfl

theorem stmt_advances (hg : GrammarAdvances g k) (hn : k + 1 < n) (hf : k < fuel) :
    Advances k (stmt g n fuel) := by
  induction fuel generalizing k
  case zero => contradiction
  case succ fuel hi =>
    have hs {j} (hj : j < k) : Advances j (stmt g n fuel) :=
      hi (hg.mono (Nat.le_of_lt hj)) (by omega) (by omega)
    have hg' {j} (hj : j < k) := hg.mono (Nat.le_of_lt hj)
    rw [stmt]
    refine peek_halts.bind_advances fun tok =>
      (tokenStartsType_halts tok).bind_advances fun tokIsType => ?_
    split
    case h_1 =>
      refine .bind .skip fun _ j hj => ?_
      exact .bind (typedefDecl_advances (hg' hj) (by omega)).halts fun _ => .pure
    case h_2 => exact .bind .skip fun _ j hj => parseReturn_halts (hg' hj)
    case h_3 => exact .bind .skip fun _ j hj => parseIf_halts (hg' hj) (hs hj) (by omega)
    case h_4 => exact .bind .skip fun _ j hj => parseWhile_halts (hg' hj) (hs hj) (by omega)
    case h_5 => exact .bind .skip fun _ j hj => parseDoWhile_halts (hg' hj) (hs hj) (by omega)
    case h_6 => exact .bind .skip fun _ j hj => parseFor_halts (hg' hj) (hs hj) (by omega)
    case h_7 => exact .bind .skip fun _ j hj => parseSwitch_halts (hg' hj) (hs hj) (by omega)
    case h_8 => exact .bind .skip fun _ j hj => parseCase_halts (hg' hj)
    case h_9 | h_10 | h_11 =>
      exact .bind .skip fun _ j hj => .bind (needPunct_advances _).halts fun _ => .pure
    case h_12 => exact .bind .skip fun _ j hj => parseGoto_halts
    case h_13 => exact .bind .skip fun _ j hj => .pure
    case h_14 =>
      refine (peekSecondPunct_halts _).bind_advances fun isLabel => ?_
      cases isLabel
      case true =>
        exact .bind .skip fun _ j hj => .bind (needPunct_advances _).halts fun _ => .pure
      case false =>
        refine identifierStartsDeclaration_halts.bind_advances fun startsDecl => ?_
        cases startsDecl
        case true  => exact parseDeclStmt_advances hg hn
        case false => exact parseExprStmt_advances hg
    case h_15 =>
      cases tokIsType
      case true  => exact parseDeclStmt_advances hg hn
      case false =>
        exact .bind (compound_advances (fun _ => hs) (by omega)) fun _ _ _ => .pure
    case h_16 =>
      cases tokIsType
      case true  => exact parseDeclStmt_advances hg hn
      case false => exact parseExprStmt_advances hg

end Statements

section TopLevel

theorem takeStaticAssertExpr_length {depth acc toks taken rest}
    (h : takeStaticAssertExpr depth acc toks = some (taken, rest)) : rest.length ≤ toks.length := by
  fun_induction takeStaticAssertExpr depth acc toks
  case case1 => cases h
  case case3 | case5 => cases h; exact le_rfl
  all_goals exact Nat.le_succ_of_le (‹_ → _› h)

theorem skipOptionalStaticAssertMessage_halts : Halts k skipOptionalStaticAssertMessage := by
  refine eat_bind (fun j hj => .bind peek_halts fun tok => ?_) .pure
  split
  case h_1 => exact Advances.skip.halts
  case h_2 => exact Advances.fail.halts

theorem parseStaticAssert_advances : Advances k parseStaticAssert := by
  have hf {k} {msg : String} : Halts k (do failAt (← peek) msg : Parser TopDecl) :=
    .bind peek_halts fun _ => Advances.fail.halts
  refine .bind (needPunct_advances _) fun _ j hj => .bind ?take fun toks => .bind .pEnv fun env => ?_
  case take =>
    refine fun toks _ => .pRaw fun env a env' rest hr => ?_
    split at hr <;> cases hr
    case h_1 h => exact takeStaticAssertExpr_length h
    case h_2   => exact le_rfl
  obtain ⟨result, hr⟩ := parseTypedConstExprTarget_isSome env.bits env.constants toks
  rw [hr]
  rcases result with msg | ⟨value, _ | ⟨tok, rest⟩⟩
  · exact hf
  · dsimp only
    split
    case isTrue =>
      refine .bind skipOptionalStaticAssertMessage_halts fun _ => ?_
      refine .bind (needPunct_advances _).halts fun _ => ?_
      exact .bind (needPunct_advances _).halts fun _ => .pure
    case isFalse => exact hf
  · exact Advances.fail.halts

theorem aggregateKeyword_advances : Advances k aggregateKeyword := by
  refine peek_halts.bind_advances fun tok => ?_
  split
  case h_1 | h_2 => exact .bind .skip fun _ _ _ => .pure
  case h_3 => exact .fail

theorem standaloneAggregateDecl_advances (hg : GrammarAdvances g k) (hn : k + 1 < n) :
    Advances k (standaloneAggregateDecl g n) := by
  refine .bind aggregateKeyword_advances fun _ j hj => .bind optionalIdent_halts fun _ => ?_
  have hg := hg.mono (Nat.le_of_lt hj)
  refine .bind (.bind (needPunct_advances _).halts fun _ => ?_) fun _ => ?_
  · exact .bind (.manyUntil eat_halts (fieldDecl_advances hg (by omega)) (by omega)) fun _ => .pure
  · exact .bind (needPunct_advances _).halts fun _ => .pure

theorem checkDefinitionParameters_halts (params) : Halts k (checkDefinitionParameters params) := by
  have hb ty : Halts k (checkDefinitionParameter.checkBounds ty) := by
    fun_induction checkDefinitionParameter.checkBounds ty
    all_goals first | exact .pure | assumption | exact .bind peek_halts fun _ => Advances.fail.halts
  induction params
  case nil => exact .pure
  case cons param params hi => exact .bind (hb param.type) fun _ => hi

theorem functionDecl_halts {name} (hg : GrammarAdvances g k) (hn : k + 1 < n) :
    Halts k (functionDecl g n ty name) := by
  have hp := parametersInScope_advances hg.ctype (fun _ hj => hg.mono (Nat.le_of_lt hj)) hn
  refine .local <| .bind hp.halts fun params => .bind (skipAttributes_halts (by omega)) fun _ => ?_
  refine eat_bind (fun _ _ => .pure) <| .bind (checkDefinitionParameters_halts _) fun _ => ?_
  have hs j (hj : j < k) : Advances j (stmt g n n) :=
    stmt_advances (hg.mono (Nat.le_of_lt hj)) (by omega) (by omega)
  exact .bind (compound_advances hs (by omega)).halts fun _ => .pure

theorem topDeclNoStruct_advances (hg : GrammarAdvances g k) (hn : k + 1 < n) :
    Advances k (topDeclNoStruct g n) := by
  have hl : Halts k leadingExternQualifier := by
    refine fun toks _ => .pRaw fun env a env' rest hr => ?_
    cases hr
    exact le_rfl
  refine hl.bind_advances fun isExtern => .bind hg.ctype fun ty0 j hj => ?_
  have hg := hg.mono (Nat.le_of_lt hj)
  refine eat_bind (fun _ _ => .pure) <| .bind ?_ fun p => eat_bind (fun i hi => ?_) ?_
  · exact (declarator_advances hg (by omega) (by omega)).halts
  · refine .bind (functionDecl_halts (hg.mono (Nat.le_of_lt hi)) (by omega)) fun _ => ?_
    exact .bind (bindParserName_halts _ _) fun _ => .pure
  · refine .bind (bindParserName_halts _ _) fun _ => ?_
    refine .bind (initializer_advances hg (by omega)).halts.optional fun _ => ?_
    exact .bind (declarationItemsTail_advances hg (by omega) (by omega)).halts fun _ => .pure

theorem topDecl_advances (hg : GrammarAdvances g k) (hn : k + 1 < n) : Advances k (topDecl g n) := by
  refine eat_bind_advances (fun _ _ => .pure) ?_
  refine eat_bind_advances (fun _ _ => parseStaticAssert_advances.halts) ?_
  refine eat_bind_advances (fun j hj => ?_) ?_
  · exact (typedefDecl_advances (hg.mono (Nat.le_of_lt hj)) (by omega)).halts
  · exact .optional_bind (standaloneAggregateDecl_advances hg hn).try (fun _ _ _ => .pure)
      (topDeclNoStruct_advances hg hn)

theorem topDecls_halts (hg : GrammarAdvances g k) (hn : k + 1 < n) (hf : k < fuel) :
    Halts k (topDecls g n fuel) := by
  induction fuel generalizing k
  case zero => contradiction
  case succ fuel hi =>
    rw [topDecls]
    refine .bind .peek fun tok => ?_
    cases tok
    case none => exact .pure
    case some =>
      refine Advances.halts <| .bind (topDecl_advances hg hn) fun _ j hj => ?_
      have hg := hg.mono (Nat.le_of_lt hj)
      exact .bind (hi hg (by omega) (by omega)) fun _ => .pure

theorem program_isSome {toks : List Token} (hn : parserFuel toks ≤ n) (env) :
    ∃ result, parseRest (topDecls (grammar n) n n) env toks = some result := by
  simp only [parserFuel] at hn
  have hg : GrammarAdvances (grammar n) toks.length := grammar_advances (by omega)
  exact (topDecls_halts hg (by omega) (by omega) toks le_rfl).parseRest env

theorem parseProgramTarget_isSome (bits toks) :
    ∃ result, parseProgramTarget bits toks = some result := by
  have ⟨result, hr⟩ := program_isSome (n := parserFuel toks) le_rfl (initialParserEnv bits)
  rw [parseProgramTarget]
  simp only [hr, Option.map_some]
  exact ⟨_, rfl⟩

-- The elements of the repetitions of the grammar.
inductive IsElement (g : Grammar) (n : Nat) : (β : Type) → Parser β → Prop
  | string                        : IsElement g n _ needString
  | argument                      : IsElement g n _ (do needPunct ","; assignExpr g)
  | field                         : IsElement g n _ (fieldDecl g n)
  | nextDeclarator (ty0 : CType)  : IsElement g n _ (do needPunct ","; fieldDeclarator g n ty0)
  | stmt                          : IsElement g n _ (Parser.stmt g n n)

theorem IsElement.advances {p : Parser α} (h : IsElement g n α p) (hg : GrammarAdvances g k)
    (hn : k + 1 < n) : Advances k p := by
  cases h
  case string => exact needString_advances
  case argument =>
    exact .bind (needPunct_advances _) fun _ _ hj =>
      ((hg.mono (Nat.le_of_lt hj)).expression _).halts
  case field => exact fieldDecl_advances hg hn
  case nextDeclarator => exact nextFieldDeclarator_advances hg hn
  case stmt => exact stmt_advances hg hn (by omega)

-- The parser ends for every input and environment, and its constructs consume at least one token.
theorem parser_advances (toks : List Token) :
    (∀ bits, ∃ result, parseProgramTarget bits toks = some result) ∧
    ∀ n ≥ parserFuel toks,
      (∀ env, ∃ result, parseRest (topDecls (grammar n) n n) env toks = some result) ∧
      Advances toks.length (topDecl (grammar n) n) ∧
      Advances toks.length (stmt (grammar n) n n) ∧
      Advances toks.length (fieldDecl (grammar n) n) ∧
      Advances toks.length (parameter (grammar n) n) ∧
      (∀ minPrec, Advances toks.length (Parser.expression (grammar n) n minPrec)) ∧
      Advances toks.length (initializerExpr (grammar n) n n) ∧
      ∀ (β : Type) (p : Parser β), IsElement (grammar n) n β p → Advances toks.length p := by
  refine ⟨fun bits => parseProgramTarget_isSome bits toks, fun n hn => ?_⟩
  have hp := program_isSome hn
  simp only [parserFuel] at hn
  have hg : GrammarAdvances (grammar n) toks.length := grammar_advances (by omega)
  have hg' j (hj : j < toks.length) := hg.mono (Nat.le_of_lt hj)
  exact ⟨hp, topDecl_advances hg (by omega), stmt_advances hg (by omega) (by omega),
    fieldDecl_advances hg (by omega), parameter_advances hg.ctype hg' (by omega),
    fun p => expression_advances hg' (by omega), initializerExpr_advances hg (by omega) (by omega),
    fun β p h => h.advances hg (by omega)⟩

-- A cast that is cut off after its second token.
theorem parser_advances_castPrefix :
    Advances 2 (topDecl (grammar 12) 12) :=
  ((parser_advances [⟨⟨⟨1, 1⟩, ⟨1, 2⟩⟩, .punct "("⟩, ⟨⟨⟨1, 2⟩, ⟨1, 5⟩⟩, .ident "int"⟩]).2 12
    (by decide)).2.1

end TopLevel

end Hcc.Parser
