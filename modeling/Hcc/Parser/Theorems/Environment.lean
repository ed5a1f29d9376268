import Hcc.ParseLite.Theorems.Relates
import Hcc.Parser.Program

namespace Hcc.Parser

-- A relation between environments that a parser cannot tell apart.
class EnvRelation (R : ParserEnv → ParserEnv → Prop) : Prop where
  lookup {x y}      : R x y → ∀ name, scopeMapLookup name x.bindings = scopeMapLookup name y.bindings
  constants {x y}   : R x y → x.constants = y.constants
  bits {x y}        : R x y → x.bits = y.bits
  enter {x y}       : R x y → R (enterParserScope x) (enterParserScope y)
  bind name binding : Relates R (bindParserName name binding)

variable {R : ParserEnv → ParserEnv → Prop} [EnvRelation R] {α β : Type} {n fuel : Nat}

section Tokens

instance bindParserName_relates {name binding} : Relates R (bindParserName name binding) :=
  EnvRelation.bind _ _

instance withParserScope_relates {p : Parser α} [Relates R p] : Relates R (withParserScope p) :=
  .scope fun _ _ => EnvRelation.enter

instance failAt_relates {tok msg} : Relates R (failAt tok msg : Parser α) :=
  .fail

instance advanceToken_relates : Relates R advanceToken :=
  .skip

instance peekMaybe_relates : Relates R peekMaybe :=
  .peek

instance peek_relates : Relates R peek := by
  refine .chain .peek fun tok => ?_
  cases tok <;> infer_instance

instance peekKind_relates : Relates R peekKind := by
  unfold peekKind
  infer_instance

-- A parser of tokens.
omit [EnvRelation R] in
theorem relates_raw {p : ParserEnv → List Token → Consumed (Reply ParserEnv Token ParseError α)}
    (h : ∀ x y toks, R x y → Alike R (some (p x toks)) (some (p y toks))) : Relates R (pRaw p) where
  alike := h

instance eat_relates {kind : TokenKind} : Relates R (eat kind) := by
  refine relates_raw fun x y toks h => ?_
  cases toks
  case nil => exact .unconsumedOk _ _ h
  case cons tok toks =>
    dsimp only
    split
    case isTrue  => exact .consumedOk _ _ h
    case isFalse => exact .unconsumedOk _ _ h

instance eatPunct_relates {s} : Relates R (eatPunct s) :=
  eat_relates

instance eatIdent_relates {s} : Relates R (eatIdent s) :=
  eat_relates

instance needPunct_relates {s} : Relates R (needPunct s) := by
  unfold needPunct
  infer_instance

instance needIdent_relates : Relates R needIdent := by
  refine .chain peek_relates fun tok => ?_
  split <;> infer_instance

instance optionalIdent_relates : Relates R optionalIdent := by
  refine .chain peekKind_relates fun kind => ?_
  split <;> infer_instance

instance lookupParserType_relates {name} : Relates R (lookupParserType name) := by
  have : ∀ x : ParserEnv, Relates R (match scopeMapLookup name x.bindings with
      | some (.type ty) => return some ty
      | _               => return none : Parser (Option CType)) := by
    intro x
    split <;> infer_instance
  refine .env fun x y h => ?_
  rw [EnvRelation.lookup h]

instance lookupParserConstant_relates {name} : Relates R (lookupParserConstant name) := by
  have : ∀ x : ParserEnv, Relates R (match scopeMapLookup name x.bindings with
      | some (.constant value) => return some value
      | _                      => return none : Parser (Option Constant)) := by
    intro x
    split <;> infer_instance
  refine .env fun x y h => ?_
  rw [EnvRelation.lookup h]

instance isKnownTypeNameP_relates {name} : Relates R (isKnownTypeNameP name) := by
  unfold isKnownTypeNameP
  infer_instance

instance tokenStartsType_relates {tok} : Relates R (tokenStartsType tok) := by
  unfold tokenStartsType
  split <;> infer_instance

instance nextStartsType_relates : Relates R nextStartsType := by
  refine .chain .peek fun tok => ?_
  cases tok <;> infer_instance

instance skipBalanced_relates {opening closing depth} :
    Relates R (skipBalanced opening closing fuel depth) := by
  induction fuel generalizing depth
  case zero => exact .outOfFuel
  case succ =>
    rw [skipBalanced]
    infer_instance

instance skipOptionalBalancedParens_relates : Relates R (skipOptionalBalancedParens fuel) := by
  unfold skipOptionalBalancedParens
  infer_instance

instance skipAttributes_relates : Relates R (skipAttributes fuel) := by
  induction fuel
  case zero => exact .outOfFuel
  case succ =>
    rw [skipAttributes]
    refine .chain peekKind_relates fun kind => ?_
    split <;> infer_instance

instance skipQualifiers_relates : Relates R (skipQualifiers fuel) := by
  induction fuel
  case zero => exact .outOfFuel
  case succ =>
    rw [skipQualifiers]
    refine .chain peekKind_relates fun kind => ?_
    split <;> infer_instance

instance pointerStars_relates {ty} : Relates R (pointerStars fuel ty) := by
  induction fuel generalizing ty
  case zero => exact .outOfFuel
  case succ =>
    rw [pointerStars]
    infer_instance

end Tokens

-- The mutually recursive parsers of the grammar do not tell related environments apart.
class GrammarRelates (R : ParserEnv → ParserEnv → Prop) (g : Grammar) : Prop where
  expression minPrec : Relates R (g.expression minPrec)
  ctype              : Relates R g.ctype
  parameters         : Relates R g.parameters

attribute [instance] GrammarRelates.expression GrammarRelates.ctype GrammarRelates.parameters

variable {g : Grammar} [GrammarRelates R g]

section Expressions

instance expr_relates : Relates R (expr g) :=
  GrammarRelates.expression _

instance assignExpr_relates : Relates R (assignExpr g) :=
  GrammarRelates.expression _

instance typeName_relates : Relates R (typeName g n) := by
  unfold typeName
  infer_instance

instance arguments_relates : Relates R (arguments g n) := by
  unfold arguments
  infer_instance

instance postfixExpr_relates {base} : Relates R (postfixExpr g n fuel base) := by
  induction fuel generalizing base
  case zero => exact .outOfFuel
  case succ =>
    rw [postfixExpr]
    refine .chain peekKind_relates fun kind => ?_
    split <;> infer_instance

instance sizeofParenExpr_relates : Relates R (sizeofParenExpr g n) := by
  unfold sizeofParenExpr
  infer_instance

instance sizeofParen_relates : Relates R (sizeofParen g n) where
  alike x y toks h := by
    have he := (sizeofParenExpr_relates (R := R) (g := g) (n := n)).alike x y toks h
    cases toks
    case nil => exact he
    case cons tok toks =>
      have ht : tokenStartsTypeInEnv x tok = tokenStartsTypeInEnv y tok := by
        simp only [tokenStartsTypeInEnv, parserEnvHasType, EnvRelation.lookup h]
      have hn := (Relates.seqLeft (R := R) (p := typeName g n) (q := needPunct ")")).alike x y (tok :: toks) h
      simp only [sizeofParen, ht]
      split
      case isFalse => exact he
      case isTrue =>
        revert hn
        generalize (typeName g n <* needPunct ")") x (tok :: toks) = reply,
          (typeName g n <* needPunct ")") y (tok :: toks) = reply'
        intro hn
        cases hn
        case outOfFuel                       => exact .outOfFuel
        case consumedError | unconsumedError => exact he
        case consumedOk rest _ _ h | unconsumedOk rest _ _ h =>
          simp only [forceConsumed]
          split
          case isTrue  => exact he
          case isFalse => exact .consumedOk _ _ h

instance needString_relates : Relates R needString := by
  refine .chain peek_relates fun tok => ?_
  split <;> infer_instance

instance stringLiteral_relates : Relates R (stringLiteral n) := by
  unfold stringLiteral
  infer_instance

instance unary_relates : Relates R (unary g n fuel) := by
  induction fuel
  case zero => exact .outOfFuel
  case succ =>
    rw [unary]
    refine .chain peek_relates fun tok => ?_
    dsimp only
    split
    case h_1 =>
      refine .chain advanceToken_relates fun _ => .chain nextStartsType_relates fun _ => ?_
      split <;> infer_instance
    case h_8 =>
      refine .chain advanceToken_relates fun _ => .chain lookupParserConstant_relates fun value => ?_
      cases value <;> infer_instance
    all_goals infer_instance

instance climb_relates {minPrec lhs} : Relates R (climb g minPrec fuel lhs) := by
  induction fuel generalizing lhs
  case zero => exact .outOfFuel
  case succ =>
    rw [climb]
    refine .chain peekKind_relates fun kind => ?_
    split
    case h_1 =>
      split
      case isTrue  => infer_instance
      case isFalse => split <;> infer_instance
    case h_2 => infer_instance

instance expression_relates {minPrec} : Relates R (expression g n minPrec) := by
  unfold expression
  infer_instance

end Expressions

section Declarators

instance initializerList_relates {p : Parser Expr} [Relates R p] :
    Relates R (initializerList p fuel) := by
  induction fuel
  case zero => exact .outOfFuel
  case succ =>
    rw [initializerList]
    infer_instance

instance initializerExpr_relates : Relates R (initializerExpr g n fuel) := by
  induction fuel
  case zero => exact .outOfFuel
  case succ =>
    rw [initializerExpr]
    infer_instance

instance rejectArrayModifiers_relates {msg} : Relates R (rejectArrayModifiers msg) := by
  refine .chain peek_relates fun tok => ?_
  split <;> infer_instance

instance arraySuffixes_relates {ty} : Relates R (arraySuffixes g fuel ty) := by
  induction fuel generalizing ty
  case zero => exact .outOfFuel
  case succ =>
    rw [arraySuffixes]
    infer_instance

instance optionalFunctionSuffix_relates {ty} : Relates R (optionalFunctionSuffix g ty) := by
  unfold optionalFunctionSuffix
  infer_instance

instance groupedDeclaratorSuffixes_relates {ty} :
    Relates R (groupedDeclaratorSuffixes g n fuel ty) := by
  induction fuel generalizing ty
  case zero => exact .outOfFuel
  case succ =>
    rw [groupedDeclaratorSuffixes]
    infer_instance

instance directDeclarator_relates {p : CType → Parser (CType × String)} {ty} [∀ ty, Relates R (p ty)] :
    Relates R (directDeclarator g n p ty) := by
  unfold directDeclarator
  refine .chain eatPunct_relates fun _ => ?_
  split <;> infer_instance

instance declarator_relates {ty} : Relates R (declarator g n fuel ty) := by
  induction fuel generalizing ty
  case zero => exact .outOfFuel
  case succ =>
    rw [declarator]
    infer_instance

instance fieldDeclarator_relates {ty} : Relates R (fieldDeclarator g n ty) := by
  refine .chain eatPunct_relates fun _ => ?_
  split <;> infer_instance

instance fieldDeclarators_relates {ty} : Relates R (fieldDeclarators g n ty) := by
  unfold fieldDeclarators
  infer_instance

instance fieldDecl_relates : Relates R (fieldDecl g n) := by
  unfold fieldDecl
  infer_instance

instance aggregateType_relates {mkType mkNamed mkInline} :
    Relates R (aggregateType g n mkType mkNamed mkInline) := by
  unfold aggregateType aggregateBodyAfterOpen
  infer_instance

instance takeEnumValueExpr_relates : Relates R takeEnumValueExpr :=
  relates_raw fun _ _ _ h => .consumedOk _ _ h

instance enumValue_relates {next} : Relates R (enumValue next) := by
  refine .chain eatPunct_relates fun _ => ?_
  split
  case isTrue =>
    refine .chain takeEnumValueExpr_relates fun toks => ?_
    have : ∀ x : ParserEnv, Relates R (match parseTypedConstExprTarget x.bits x.constants toks with
        | none                         => outOfFuelP
        | some (.error msg)            => do failAt (← peek) ("invalid enum initializer: " ++ msg)
        | some (.ok (value, trailing)) =>
          if trailing.all ignorableEnumExprTail then return normalizeParserConstant value
          else match trailing with
            | tok :: _ =>
              failAt tok ("unexpected tokens in enum initializer: " ++ tokenText tok.kind)
            | []       => do failAt (← peek) "unexpected tokens in enum initializer" :
          Parser Constant) := by
      intro x
      split
      case h_1 | h_2 => infer_instance
      case h_3 =>
        split
        case isTrue  => infer_instance
        case isFalse => split <;> infer_instance
    refine .env fun x y h => ?_
    rw [EnvRelation.bits h, EnvRelation.constants h]
  case isFalse => split <;> infer_instance

instance parseEnumBody_relates {next} : Relates R (parseEnumBody fuel next) := by
  induction fuel generalizing next
  case zero => exact .outOfFuel
  case succ =>
    rw [parseEnumBody]
    refine .chain eatPunct_relates fun _ => ?_
    split
    case isTrue  => infer_instance
    case isFalse =>
      unfold bindParserConstant
      refine .chain eatPunct_relates fun _ => ?_
      split <;> infer_instance

instance enumType_relates : Relates R (enumType n) := by
  unfold enumType
  infer_instance

end Declarators

section Types

instance optionalInt_relates {ty} : Relates R (optionalInt ty) := by
  refine .chain peekKind_relates fun kind => ?_
  split <;> infer_instance

instance signedBaseType_relates : Relates R signedBaseType := by
  refine .chain peekKind_relates fun kind => ?_
  unfold optionalShortInt
  split <;> infer_instance

instance unsignedLongTail_relates : Relates R unsignedLongTail := by
  refine .chain peekKind_relates fun kind => ?_
  unfold optionalUnsignedLongLongInt
  split <;> infer_instance

instance unsignedBaseType_relates : Relates R unsignedBaseType := by
  refine .chain peekKind_relates fun kind => ?_
  unfold optionalUnsignedShortInt
  split <;> infer_instance

instance longBaseType_relates : Relates R longBaseType := by
  refine .chain peekKind_relates fun kind => ?_
  unfold optionalLongLongTail
  split <;> infer_instance

instance baseType_relates : Relates R (baseType g n) := by
  refine .chain peek_relates fun tok => ?_
  unfold optionalShortInt
  split <;> infer_instance

instance ctype_relates : Relates R (ctype g n) := by
  unfold ctype
  infer_instance

end Types

section Parameters

instance parameterVoidOnly_relates : Relates R parameterVoidOnly := by
  refine relates_raw fun x y toks h => ?_
  split
  case h_1 => exact .consumedOk _ _ h
  case h_2 => exact .unconsumedOk _ _ h

instance skipParameterArrayQualifiers_relates : Relates R (skipParameterArrayQualifiers fuel) := by
  induction fuel
  case zero => exact .outOfFuel
  case succ =>
    rw [skipParameterArrayQualifiers]
    refine .chain peekKind_relates fun kind => ?_
    split <;> infer_instance

instance parameterArrayInner_relates {ty} : Relates R (parameterArrayInner g fuel ty) := by
  induction fuel generalizing ty
  case zero => exact .outOfFuel
  case succ =>
    rw [parameterArrayInner]
    infer_instance

instance parameterArraySuffix_relates {ty} : Relates R (parameterArraySuffix g n ty) := by
  refine .chain eatPunct_relates fun _ => ?_
  split
  case isTrue  =>
    refine .chain eatIdent_relates fun _ => .chain skipParameterArrayQualifiers_relates fun _ => ?_
    refine .chain Relates.ite fun _ => .chain rejectArrayModifiers_relates fun _ => ?_
    exact .chain Relates.ite fun _ => inferInstance
  case isFalse => infer_instance

instance parameterDeclarator_relates {ty} : Relates R (parameterDeclarator g n ty) := by
  refine .chain eatPunct_relates fun _ => ?_
  split <;> infer_instance

instance parameter_relates : Relates R (parameter g n) := by
  unfold parameter bindParserOrdinary
  infer_instance

instance parameterTail_relates : Relates R (parameterTail g n fuel) := by
  induction fuel
  case zero => exact .outOfFuel
  case succ =>
    rw [parameterTail]
    infer_instance

instance parametersInScope_relates : Relates R (parametersInScope g n) := by
  unfold parametersInScope parseNonEmptyParams
  infer_instance

instance parameters_relates : Relates R (parameters g n) := by
  unfold parameters
  infer_instance

end Parameters

omit [GrammarRelates R g] in
-- The step from the calls of a parser to the parser.
instance grammar_relates : GrammarRelates R (grammar fuel) := by
  induction fuel
  case zero => exact ⟨fun _ => .outOfFuel, .outOfFuel, .outOfFuel⟩
  case succ => exact ⟨fun _ => expression_relates, ctype_relates, parameters_relates⟩

section Statements

instance needIdentValue_relates {expected} : Relates R (needIdentValue expected) := by
  refine .chain peek_relates fun tok => ?_
  split <;> infer_instance

instance peekSecondPunct_relates {punct} : Relates R (peekSecondPunct punct) := by
  refine relates_raw fun x y toks h => ?_
  split <;> exact .unconsumedOk _ _ h

instance identifierStartsDeclaration_relates : Relates R identifierStartsDeclaration := by
  refine relates_raw fun x y toks h => ?_
  simp only [parserEnvHasType, EnvRelation.lookup h]
  split <;> exact .unconsumedOk _ _ h

instance bindTypedef_relates {item} : Relates R (bindTypedef item) := by
  unfold bindTypedef bindParserType
  infer_instance

instance typedefItem_relates {ty} : Relates R (typedefItem g n ty) := by
  unfold typedefItem
  infer_instance

instance declarationItem_relates {ty} : Relates R (declarationItem g n ty) := by
  unfold declarationItem bindParserOrdinary
  infer_instance

instance typedefItemsTail_relates {ty} : Relates R (typedefItemsTail g n ty fuel) := by
  induction fuel
  case zero => exact .outOfFuel
  case succ =>
    rw [typedefItemsTail]
    infer_instance

instance typedefDecl_relates : Relates R (typedefDecl g n) := by
  unfold typedefDecl
  infer_instance

instance declarationItemsTail_relates {ty} : Relates R (declarationItemsTail g n ty fuel) := by
  induction fuel
  case zero => exact .outOfFuel
  case succ =>
    rw [declarationItemsTail]
    infer_instance

instance localPrototype_relates {ty} : Relates R (localPrototype g n ty) := by
  unfold localPrototype bindParserOrdinary
  refine .chain pointerStars_relates fun _ => .chain needIdent_relates fun _ => ?_
  infer_instance

instance parseDeclStmt_relates : Relates R (parseDeclStmt g n) := by
  refine .chain GrammarRelates.ctype fun ty => .chain eatPunct_relates fun _ => ?_
  split
  case isTrue  => infer_instance
  case isFalse =>
    refine .chain Relates.optional fun prototype => ?_
    cases prototype <;> infer_instance

instance typedefStmt_relates : Relates R (typedefStmt g n) := by
  unfold typedefStmt
  infer_instance

instance parseExprStmt_relates : Relates R (parseExprStmt g) := by
  unfold parseExprStmt
  infer_instance

instance parseGoto_relates : Relates R parseGoto := by
  unfold parseGoto
  infer_instance

instance parseReturn_relates : Relates R (parseReturn g) := by
  unfold parseReturn
  infer_instance

instance parseCase_relates : Relates R (parseCase g) := by
  unfold parseCase
  infer_instance

instance optionalExprUntil_relates {punct} : Relates R (optionalExprUntil g punct) := by
  unfold optionalExprUntil
  infer_instance

instance forInit_relates : Relates R (forInit g n) := by
  refine .chain eatPunct_relates fun _ => ?_
  split
  case isTrue  => infer_instance
  case isFalse =>
    refine .chain peek_relates fun _ => .chain tokenStartsType_relates fun _ => ?_
    split <;> infer_instance

variable {s : Parser Stmt} [Relates R s]

instance compound_relates : Relates R (compound n s) := by
  unfold compound
  infer_instance

instance stmtAsBlock_relates : Relates R (stmtAsBlock n s) := by
  refine @withParserScope_relates _ _ _ _ <| .chain peek_relates fun tok => ?_
  split
  case h_1 => infer_instance
  case h_2 =>
    refine .chain ‹_› fun first => ?_
    split <;> infer_instance

instance parseIf_relates : Relates R (parseIf g n s) := by
  unfold parseIf
  infer_instance

instance parseWhile_relates : Relates R (parseWhile g n s) := by
  unfold parseWhile
  infer_instance

instance parseDoWhile_relates : Relates R (parseDoWhile g n s) := by
  unfold parseDoWhile
  infer_instance

instance parseFor_relates : Relates R (parseFor g n s) := by
  unfold parseFor
  infer_instance

instance parseSwitch_relates : Relates R (parseSwitch g n s) := by
  unfold parseSwitch
  infer_instance

omit [Relates R s] in
instance stmt_relates : Relates R (stmt g n fuel) := by
  induction fuel
  case zero => exact .outOfFuel
  case succ =>
    rw [stmt]
    refine .chain peek_relates fun tok => .chain tokenStartsType_relates fun _ => ?_
    split <;> infer_instance

end Statements

section TopLevel

instance skipOptionalStaticAssertMessage_relates : Relates R skipOptionalStaticAssertMessage := by
  refine .chain eatPunct_relates fun _ => ?_
  split
  case isTrue =>
    refine .chain peek_relates fun tok => ?_
    split <;> infer_instance
  case isFalse => infer_instance

instance parseStaticAssert_relates : Relates R parseStaticAssert := by
  refine .chain needPunct_relates fun _ => .chain (relates_raw fun x y toks h => ?_) fun toks => ?_
  · split
    case h_1 => exact .consumedOk _ _ h
    case h_2 => exact .unconsumedOk _ _ h
  · have : ∀ x : ParserEnv, Relates R (match parseTypedConstExprTarget x.bits x.constants toks with
        | none                         => outOfFuelP
        | some (.ok (value, []))       => do
          if constantTrue value then
            skipOptionalStaticAssertMessage
            needPunct ")"
            needPunct ";"
            return .typeDecl []
          else failAt (← peek) "_Static_assert failed"
        | some (.ok (_, tok :: _))     =>
          failAt tok "unexpected tokens in _Static_assert expression"
        | some (.error msg)            => do
          failAt (← peek) ("invalid _Static_assert expression: " ++ msg) : Parser TopDecl) := by
      intro x
      split <;> infer_instance
    refine .env fun x y h => ?_
    rw [EnvRelation.bits h, EnvRelation.constants h]

instance aggregateKeyword_relates : Relates R aggregateKeyword := by
  refine .chain peek_relates fun tok => ?_
  split <;> infer_instance

instance aggregateBody_relates : Relates R (aggregateBody g n) := by
  unfold aggregateBody
  infer_instance

instance standaloneAggregateDecl_relates : Relates R (standaloneAggregateDecl g n) := by
  unfold standaloneAggregateDecl
  infer_instance

instance checkBounds_relates {ty} : Relates R (checkDefinitionParameter.checkBounds ty) := by
  unfold checkDefinitionParameter.checkBounds
  split
  case h_1 inner bound =>
    have : Relates R (checkDefinitionParameter.checkBounds inner) := checkBounds_relates
    cases bound <;> infer_instance
  case h_2 => infer_instance

instance checkDefinitionParameters_relates {params} :
    Relates R (checkDefinitionParameters params) := by
  induction params
  case nil  => exact .pure
  case cons =>
    unfold checkDefinitionParameters checkDefinitionParameter
    infer_instance

instance leadingExternQualifier_relates : Relates R leadingExternQualifier :=
  relates_raw fun _ _ _ h => .unconsumedOk _ _ h

instance functionDecl_relates {ty name} : Relates R (functionDecl g n ty name) := by
  unfold functionDecl
  infer_instance

instance topDeclNoStruct_relates : Relates R (topDeclNoStruct g n) := by
  refine .chain leadingExternQualifier_relates fun _ => .chain GrammarRelates.ctype fun _ => ?_
  refine .chain eatPunct_relates fun _ => ?_
  split
  case isTrue  => infer_instance
  case isFalse =>
    unfold bindParserOrdinary
    refine .chain declarator_relates fun _ => .chain eatPunct_relates fun _ => ?_
    split <;> infer_instance

instance topDeclNoTypedef_relates : Relates R (topDeclNoTypedef g n) := by
  refine .chain Relates.optional fun decl => ?_
  cases decl <;> infer_instance

instance topDecl_relates : Relates R (topDecl g n) := by
  unfold topDecl
  infer_instance

instance topDecls_relates : Relates R (topDecls g n fuel) := by
  induction fuel
  case zero => exact .outOfFuel
  case succ =>
    refine .chain peekMaybe_relates fun tok => ?_
    cases tok <;> infer_instance

end TopLevel
end Hcc.Parser
