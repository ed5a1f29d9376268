import Hcc.ParseLite.Theorems.Reads
import Hcc.Parser.Printing

namespace Hcc.Parser

variable {env : ParserEnv} {toks toks₁ toks₂ rest : List Token} {tok : Token} {s : Span}

section Tokens

theorem advanceToken_yields : Yields advanceToken env (tok :: toks) () env toks :=
  .skip

theorem peek_yields : Yields peek env (tok :: toks) tok env (tok :: toks) :=
  rfl

theorem peekKind_yields : Yields peekKind env toks (toks.head?.map Token.kind) env toks :=
  rfl

theorem eat_yields {kind : TokenKind} : Yields (eat kind) env (⟨s, kind⟩ :: toks) true env toks := by
  simp [Yields, eat, pRaw, forceConsumed]

theorem eat_yields_false {kind : TokenKind} (h : ∀ tok ∈ toks.head?, tok.kind ≠ kind) :
    Yields (eat kind) env toks false env toks := by
  cases toks
  case nil  => rfl
  case cons => simp [Yields, eat, pRaw, forceConsumed, h _ rfl]

theorem needPunct_yields {p : String} : Yields (needPunct p) env (⟨s, .punct p⟩ :: toks) () env toks :=
  .bind eat_yields .pure

theorem needPunct_rejects {p : String} (h : tok.kind ≠ .punct p) :
    ∃ e, needPunct p env (tok :: toks) = some (.unconsumed (.error e)) := by
  refine ⟨parseErrorAt tok ("expected " ++ p.quote), ?_⟩
  simp only [needPunct, eatPunct, eat, pRaw, Bind.bind, P.bind, h, if_false, Option.bind_some]
  rfl

theorem needIdent_yields {name : String} :
    Yields needIdent env (⟨s, .ident name⟩ :: toks) name env toks :=
  .bind peek_yields <| .bind advanceToken_yields .pure

theorem lookupParserType_yields {name : String} : Yields (lookupParserType name) env toks
    (match scopeMapLookup name env.bindings with | some (.type type) => some type | _ => none) env toks := by
  refine .bind .pEnv ?_
  cases scopeMapLookup name env.bindings
  case none         => exact .pure
  case some binding => cases binding <;> exact .pure

theorem lookupParserConstant_yields {name : String} : Yields (lookupParserConstant name) env toks
    (match scopeMapLookup name env.bindings with | some (.constant value) => some value | _ => none)
    env toks := by
  refine .bind .pEnv ?_
  cases scopeMapLookup name env.bindings
  case none         => exact .pure
  case some binding => cases binding <;> exact .pure

theorem nextStartsType_yields :
    Yields nextStartsType env (tok :: toks) (tokenStartsTypeInEnv env tok) env (tok :: toks) := by
  refine .bind .peek ?_
  rcases tok with ⟨s, kind⟩
  cases kind
  case ident name =>
    simp only [List.head?_cons, tokenStartsType, tokenStartsTypeInEnv]
    split
    case isTrue h  => simpa [h] using Yields.pure
    case isFalse h =>
      have hl : parserEnvHasType name env = (match scopeMapLookup name env.bindings with
          | some (.type type) => some type | _ => none).isSome := by
        rw [parserEnvHasType]
        split <;> simp_all
      rw [Bool.eq_false_of_not_eq_true h, Bool.false_or, hl]
      exact .bind lookupParserType_yields .pure
  all_goals exact .pure

end Tokens

section Expressions

variable {base e u v : Expr} {m : Int}

abbrev ReadsExpression (env : ParserEnv) (m : Int) (toks : List Token) (e : Expr) (rest : List Token) : Prop :=
  Reads (fun n _ => (grammar n).expression m) env toks e env rest

abbrev ReadsUnary (env : ParserEnv) (toks : List Token) (e : Expr) (rest : List Token) : Prop :=
  Reads (fun n fuel => unary (grammar n) n fuel) env toks e env rest

abbrev ReadsSuffixes (env : ParserEnv) (base : Expr) (toks : List Token) (e : Expr) (rest : List Token) : Prop :=
  Reads (fun n fuel => postfixExpr (grammar n) n fuel base) env toks e env rest

abbrev ReadsOperators (env : ParserEnv) (m : Int) (lhs : Expr) (toks : List Token) (e : Expr)
    (rest : List Token) : Prop :=
  Reads (fun n fuel => climb (grammar n) m fuel lhs) env toks e env rest

theorem reads_expression (hu : ReadsUnary env toks u toks₁) (hs : ReadsSuffixes env u toks₁ v toks₂)
    (ho : ReadsOperators env m v toks₂ e rest) : ReadsExpression env m toks e rest :=
  .call <| .bind hu.diag <| .bind hs.diag ho.diag

-- An operand of a prefix operator.
theorem reads_operand (hu : ReadsUnary env toks u toks₁) (hs : ReadsSuffixes env u toks₁ e rest) :
    Reads (fun n fuel => do postfixExpr (grammar n) n n (← unary (grammar n) n fuel)) env toks e env rest :=
  .bind hu hs.diag

theorem reads_unary_prefix {op : String} (ho : op ∈ prefixOperators) (hu : ReadsUnary env toks u toks₁)
    (hs : ReadsSuffixes env u toks₁ e rest) :
    ReadsUnary env (⟨s, .punct op⟩ :: toks) (.unary op e) rest := by
  refine .loop <| .yields_bind peek_yields ?_
  simp only [prefixOperators, List.mem_cons, List.not_mem_nil, or_false] at ho
  rcases ho with rfl | rfl | rfl | rfl | rfl | rfl | rfl | rfl
  all_goals exact .yields_bind advanceToken_yields <| .bind (reads_operand hu hs) .pure

theorem reads_unary_group (ht : tokenStartsTypeInEnv env tok = false)
    (he : ReadsExpression env 0 (tok :: toks) e (⟨s₂, .punct ")"⟩ :: rest)) :
    ReadsUnary env (⟨s, .punct "("⟩ :: tok :: toks) e rest := by
  refine .loop <| .yields_bind peek_yields ?_
  refine .yields_bind advanceToken_yields <| .yields_bind nextStartsType_yields ?_
  rw [ht]
  exact .bind he <| .yields_bind needPunct_yields .pure

theorem reads_unary_cast {type : CType} {s₂ : Span} (ht : tokenStartsTypeInEnv env tok = true)
    (hn : Reads (fun n _ => typeName (grammar n) n) env (tok :: toks) type env (⟨s₂, .punct ")"⟩ :: toks₁))
    (hu : ReadsUnary env toks₁ u toks₂) (hs : ReadsSuffixes env u toks₂ e rest) :
    ReadsUnary env (⟨s, .punct "("⟩ :: tok :: toks) (.cast type e) rest := by
  refine .loop <| .yields_bind peek_yields ?_
  refine .yields_bind advanceToken_yields <| .yields_bind nextStartsType_yields ?_
  rw [ht]
  exact .bind hn <| .yields_bind needPunct_yields <| .bind (reads_operand hu hs) .pure

theorem reads_unary_sizeof (ht : tok.kind ≠ .punct "(") (hu : ReadsUnary env (tok :: toks) u toks₁)
    (hs : ReadsSuffixes env u toks₁ e rest) :
    ReadsUnary env (⟨s, .ident "sizeof"⟩ :: tok :: toks) (.sizeofExpr e) rest := by
  refine .loop <| .yields_bind peek_yields ?_
  refine .yields_bind advanceToken_yields <| .yields_bind (eat_yields_false <| by simpa using ht) ?_
  exact .bind (reads_operand hu hs) .pure

-- The parenthesis after `sizeof` belongs to its operand, which can be continued.
theorem reads_unary_sizeof_group {s₁ s₂ : Span} (ht : tokenStartsTypeInEnv env tok = false)
    (hu : ReadsExpression env 0 (tok :: toks) u (⟨s₂, .punct ")"⟩ :: toks₁))
    (hs : ReadsSuffixes env u toks₁ e rest) :
    ReadsUnary env (⟨s, .ident "sizeof"⟩ :: ⟨s₁, .punct "("⟩ :: tok :: toks) (.sizeofExpr e) rest := by
  refine .loop <| .yields_bind peek_yields ?_
  refine .yields_bind advanceToken_yields <| .yields_bind eat_yields ?_
  have hr : Reads (fun n _ => sizeofParenExpr (grammar n) n) env (tok :: toks) (.sizeofExpr e) env rest :=
    .bind hu <| .yields_bind needPunct_yields <| .bind hs.diag .pure
  exact hr.congr fun n fuel => by simp [sizeofParen, ht]

theorem reads_unary_int {text : String} : ReadsUnary env (⟨s, .int text⟩ :: rest) (.int text.toList) rest :=
  .loop <| .yields_bind peek_yields <| .yields_bind advanceToken_yields .pure

theorem reads_unary_float {text : String} :
    ReadsUnary env (⟨s, .float text⟩ :: rest) (.float text.toList) rest :=
  .loop <| .yields_bind peek_yields <| .yields_bind advanceToken_yields .pure

theorem reads_unary_char {text : String} :
    ReadsUnary env (⟨s, .char text⟩ :: rest) (.char text.toList) rest :=
  .loop <| .yields_bind peek_yields <| .yields_bind advanceToken_yields .pure

theorem reads_unary_var {name : String} (h : IsOrdinary env name) :
    ReadsUnary env (⟨s, .ident name⟩ :: rest) (.var name) rest := by
  refine .loop <| .yields_bind peek_yields ?_
  have hc : (match scopeMapLookup name env.bindings with
      | some (.constant value) => some value | _ => none) = none := by
    split
    case h_1 value hl => exact absurd hl <| h.not_constant value
    case h_2          => rfl
  have hl : Yields (lookupParserConstant name) env rest none env rest := hc ▸ lookupParserConstant_yields
  simp only [h.ne_sizeof, imp_self]
  exact .yields_bind advanceToken_yields <| .yields_bind hl .pure

theorem needString_yields {text : String} :
    Yields needString env (⟨s, .string text⟩ :: rest) text.toList env rest :=
  .bind peek_yields <| .bind advanceToken_yields .pure

def IsString (toks : List Token) : Prop :=
  ∃ s text toks', toks = ⟨s, .string text⟩ :: toks'

theorem needString_rejects (h : ¬IsString toks) :
    ∃ e, needString env toks = some (.unconsumed (.error e)) := by
  cases toks
  case nil => exact ⟨_, rfl⟩
  case cons tok toks =>
    rcases tok with ⟨s, kind⟩
    cases kind
    case string => exact absurd ⟨_, _, _, rfl⟩ h
    all_goals exact ⟨_, rfl⟩

-- String literals are joined, so no other one follows.
theorem reads_unary_string {text : String} (ht : joinStrings [text.toList] = text.toList) (hs : ¬IsString rest) :
    ReadsUnary env (⟨s, .string text⟩ :: rest) (.string text.toList) rest := by
  have ⟨e, he⟩ : ∃ e, needString env rest = some (.unconsumed (.error e)) := needString_rejects hs
  refine .loop <| .yields_bind peek_yields ?_
  refine .bind (p := fun n _ => stringLiteral n) (a := text.toList) ?_ .pure
  have hr : Reads (fun n _ => pMany needString n) env rest [] env rest :=
    Reads.diag <| Reads.many_nil (p := fun _ _ => needString) fun _ => he
  refine .yields_bind needString_yields <| .bind hr ?_
  rw [ht]
  exact .pure

section Suffixes

variable {name op : String} {ix : Expr} {args : List Expr} {s₁ s₂ : Span}

theorem reads_suffix_call (ha : Reads (fun n _ => arguments (grammar n) n) env toks args env toks₁)
    (hs : ReadsSuffixes env (.call base args) toks₁ e rest) :
    ReadsSuffixes env base (⟨s, .punct "("⟩ :: toks) e rest :=
  .loop <| .yields_bind peekKind_yields <| .yields_bind advanceToken_yields <| .bind ha hs

theorem reads_suffix_index (hi : ReadsExpression env 0 toks ix (⟨s₂, .punct "]"⟩ :: toks₁))
    (hs : ReadsSuffixes env (.index base ix) toks₁ e rest) :
    ReadsSuffixes env base (⟨s, .punct "["⟩ :: toks) e rest :=
  .loop <| .yields_bind peekKind_yields <| .yields_bind advanceToken_yields <|
    .bind hi <| .yields_bind needPunct_yields hs

theorem reads_suffix_member (hs : ReadsSuffixes env (.member base name) toks e rest) :
    ReadsSuffixes env base (⟨s₁, .punct "."⟩ :: ⟨s₂, .ident name⟩ :: toks) e rest :=
  .loop <| .yields_bind peekKind_yields <| .yields_bind advanceToken_yields <|
    .yields_bind needIdent_yields hs

theorem reads_suffix_ptrMember (hs : ReadsSuffixes env (.ptrMember base name) toks e rest) :
    ReadsSuffixes env base (⟨s₁, .punct "->"⟩ :: ⟨s₂, .ident name⟩ :: toks) e rest :=
  .loop <| .yields_bind peekKind_yields <| .yields_bind advanceToken_yields <|
    .yields_bind needIdent_yields hs

theorem reads_suffix_incDec (ho : op ∈ ["++", "--"]) (hs : ReadsSuffixes env (.postIncDec op base) toks e rest) :
    ReadsSuffixes env base (⟨s, .punct op⟩ :: toks) e rest := by
  simp only [List.mem_cons, List.not_mem_nil, or_false] at ho
  rcases ho with rfl | rfl
  all_goals exact .loop <| .yields_bind peekKind_yields <| .yields_bind advanceToken_yields hs

-- No suffix follows.
theorem reads_suffix_end (h : postfixContinues rest = false) : ReadsSuffixes env base rest base rest := by
  refine .loop <| .yields_bind peekKind_yields ?_
  cases rest
  case nil => exact .pure
  case cons tok rest =>
    rcases tok with ⟨s, kind⟩
    cases kind
    case punct p =>
      simp [postfixContinues] at h
      simp [h]
      exact .pure
    all_goals exact .pure

end Suffixes

section Operators

variable {op : String} {p : Int} {lhs yes no rhs : Expr} {s₁ s₂ : Span}

-- Neither a suffix nor another string follows.
structure Ends (toks : List Token) : Prop where
  not_suffix : postfixContinues toks = false
  not_string : ¬IsString toks

-- No operator of the given precedence follows, either.
structure Stops (prec : Int) (toks : List Token) : Prop extends Ends toks where
  operator : ∀ {s op toks'}, toks = ⟨s, .punct op⟩ :: toks' →
    (op = "?" → 2 < prec) ∧ ∀ {p assoc}, binop op = some (p, assoc) → p < prec

theorem Stops.mono (h : Stops p toks) (hm : p ≤ m) : Stops m toks where
  toEnds      := h.toEnds
  operator ht := have ⟨h₁, h₂⟩ := h.operator ht
    ⟨fun ho => Int.lt_of_lt_of_le (h₁ ho) hm, fun ho => Int.lt_of_lt_of_le (h₂ ho) hm⟩

theorem reads_operators_end (h : Stops m rest) : ReadsOperators env m lhs rest lhs rest := by
  refine .loop <| .yields_bind peekKind_yields ?_
  cases rest
  case nil => exact .pure
  case cons tok rest =>
    rcases tok with ⟨s, kind⟩
    cases kind
    case punct op =>
      obtain ⟨hq, hb⟩ := h.operator rfl
      have hc : (op = "?" && decide (m ≤ 2)) = false := by
        by_cases ho : op = "?"
        case pos => simpa [ho] using hq ho
        case neg => simp [ho]
      simp only [List.head?_cons, Option.map_some, hc]
      split
      case isTrue hn => cases hn
      case isFalse =>
        split
        case h_1 p assoc ho =>
          simp only [if_neg (show ¬p ≥ m from Int.not_le.mpr <| hb ho)]
          exact .pure
        case h_2 => exact .pure
    all_goals exact .pure

theorem binop_question : binop "?" = none := by
  decide

theorem reads_operator_left (ho : binop op = some (p, .left)) (hp : m ≤ p)
    (hr : ReadsExpression env (p + 1) toks rhs toks₁) (hs : ReadsOperators env m (assignNode op lhs rhs) toks₁ e rest) :
    ReadsOperators env m lhs (⟨s, .punct op⟩ :: toks) e rest := by
  refine .loop <| .yields_bind peekKind_yields ?_
  have hq : op ≠ "?" := by
    rintro rfl
    exact nomatch binop_question ▸ ho
  simp only [List.head?_cons, Option.map_some, hq, decide_false, Bool.false_and, ho, if_pos hp]
  exact .yields_bind advanceToken_yields <| .bind hr hs

theorem reads_operator_right (ho : binop op = some (p, .right)) (hp : m ≤ p)
    (hr : ReadsExpression env p toks rhs toks₁) (hs : ReadsOperators env m (assignNode op lhs rhs) toks₁ e rest) :
    ReadsOperators env m lhs (⟨s, .punct op⟩ :: toks) e rest := by
  refine .loop <| .yields_bind peekKind_yields ?_
  have hq : op ≠ "?" := by
    rintro rfl
    exact nomatch binop_question ▸ ho
  simp only [List.head?_cons, Option.map_some, hq, decide_false, Bool.false_and, ho, if_pos hp]
  exact .yields_bind advanceToken_yields <| .bind hr hs

theorem reads_operator_cond (hm : m ≤ 2) (hy : ReadsExpression env 0 toks yes (⟨s₂, .punct ":"⟩ :: toks₁))
    (hn : ReadsExpression env 2 toks₁ no toks₂) (hs : ReadsOperators env m (.cond lhs yes no) toks₂ e rest) :
    ReadsOperators env m lhs (⟨s₁, .punct "?"⟩ :: toks) e rest := by
  refine .loop <| .yields_bind peekKind_yields ?_
  simp only [List.head?_cons, Option.map_some, hm, decide_true, Bool.and_self, if_true]
  exact .yields_bind advanceToken_yields <| .bind hy <| .yields_bind needPunct_yields <| .bind hn hs

end Operators
section Arguments

variable {args : List (Expr × List Token)} {comma closing : Span}

-- The first token of an expression.
def StartsExpr (env : ParserEnv) (toks : List Token) : Prop :=
  ∃ tok toks', toks = tok :: toks' ∧ tokenStartsTypeInEnv env tok = false ∧ tok.kind ≠ .punct ")"

theorem StartsExpr.append (h : StartsExpr env toks) : StartsExpr env (toks ++ rest) :=
  have ⟨tok, toks', ht, h⟩ := h
  ⟨tok, toks' ++ rest, by rw [ht, List.cons_append], h⟩

-- An argument is read up to the next comma or parenthesis.
structure ReadsArgument (env : ParserEnv) (e : Expr) (toks : List Token) : Prop where
  start : StartsExpr env toks
  reads : ∀ {rest}, Stops 1 rest → ReadsExpression env 1 (toks ++ rest) e rest

theorem stops_punct {p : String} (hc : p ∉ ["(", "[", ".", "->", "++", "--"]) (hq : p = "?" → 2 < m)
    (ho : ∀ {prec assoc}, binop p = some (prec, assoc) → prec < m) : Stops m (⟨s, .punct p⟩ :: rest) where
  not_suffix  := by simpa [postfixContinues] using hc
  not_string  := by simp [IsString]
  operator ht := by
    obtain rfl := TokenKind.punct.inj <| congrArg Token.kind (List.cons.inj ht).left
    exact ⟨hq, ho⟩

theorem stops_closing {p : String} (h : p ∈ [")", "]", ":"]) : Stops m (⟨s, .punct p⟩ :: rest) := by
  simp only [List.mem_cons, List.not_mem_nil, or_false] at h
  rcases h with rfl | rfl | rfl <;> exact stops_punct (by decide) nofun (by simp [binop, binopArith])

theorem stops_moreArguments :
    Stops 1 ((args.map Prod.snd).flatMap (⟨comma, .punct ","⟩ :: ·) ++ ⟨closing, .punct ")"⟩ :: rest) := by
  cases args
  case nil  => exact stops_closing (by decide)
  case cons => exact stops_punct (by decide) nofun (by simp [binop])

theorem reads_moreArguments (h : ∀ arg ∈ args, ReadsArgument env arg.1 arg.2) :
    Reads (fun n fuel => pMany (do needPunct ","; assignExpr (grammar n)) fuel) env
      ((args.map Prod.snd).flatMap (⟨comma, .punct ","⟩ :: ·) ++ ⟨closing, .punct ")"⟩ :: rest)
      (args.map Prod.fst) env (⟨closing, .punct ")"⟩ :: rest) := by
  induction args
  case nil =>
    have ⟨e, he⟩ : ∃ e, needPunct "," env (⟨closing, .punct ")"⟩ :: rest) = some (.unconsumed (.error e)) :=
      needPunct_rejects (by simp)
    exact Reads.many_nil (p := fun n _ => do needPunct ","; assignExpr (grammar n)) fun _ => bind_rejects he
  case cons arg args hi =>
    have ⟨ha, has⟩ := List.forall_mem_cons.mp h
    refine Reads.many_cons (p := fun n _ => do needPunct ","; assignExpr (grammar n)) ?_ (hi has)
    simp only [List.map_cons, List.flatMap_cons, List.cons_append, List.append_assoc]
    exact .yields_bind needPunct_yields <| ha.reads stops_moreArguments

theorem reads_arguments (h : ∀ arg ∈ args, ReadsArgument env arg.1 arg.2) :
    Reads (fun n _ => arguments (grammar n) n) env
      (separate ⟨comma, .punct ","⟩ (args.map Prod.snd) ++ ⟨closing, .punct ")"⟩ :: rest) (args.map Prod.fst)
      env rest := by
  cases args
  case nil => exact .yields_bind eat_yields .pure
  case cons arg args =>
    have ⟨ha, has⟩ := List.forall_mem_cons.mp h
    have ⟨tok, toks', ht, _, hc⟩ := ha.start
    rw [List.map_cons, separate, List.append_assoc]
    refine .yields_bind (eat_yields_false <| by simpa [ht] using hc) ?_
    refine .bind (ha.reads stops_moreArguments) <| .bind (reads_moreArguments has).diag ?_
    exact .yields_bind needPunct_yields .pure

end Arguments

section Types

variable {type type' : CType} {name : String}

abbrev ReadsStars (env : ParserEnv) (type : CType) (toks : List Token) (type' : CType) (rest : List Token) : Prop :=
  Reads (fun _ fuel => pointerStars fuel type) env toks type' env rest

-- A type is followed by a star or by the closing parenthesis.
def AfterType (toks : List Token) : Prop :=
  ∃ s p toks', toks = ⟨s, .punct p⟩ :: toks' ∧ (p = "*" ∨ p = ")")

-- A type starts with an identifier that is not a qualifier.
def StartsType (env : ParserEnv) (toks : List Token) : Prop :=
  ∃ s name toks', toks = ⟨s, .ident name⟩ :: toks' ∧ tokenStartsTypeInEnv env ⟨s, .ident name⟩ ∧
    name ∉ unsupportedQualifiers ∧ name ∉ storageAndTypeQualifiers ∧ name ∉ ["__attribute__", "__extension__"]

theorem StartsType.append (h : StartsType env toks) : StartsType env (toks ++ rest) :=
  have ⟨s, name, toks', ht, h⟩ := h
  ⟨s, name, toks' ++ rest, by rw [ht, List.cons_append], h⟩

theorem StartsType.reads_qualifiers (h : StartsType env toks) :
    Reads (fun _ fuel => skipQualifiers fuel) env toks () env toks := by
  obtain ⟨s, name, toks', rfl, -, h₁, h₂, h₃⟩ := h
  refine .loop <| .yields_bind peekKind_yields ?_
  simp only [List.head?_cons, Option.map_some, h₁, h₂, h₃, if_false]
  exact .pure

theorem AfterType.reads_qualifiers (h : AfterType toks) :
    Reads (fun _ fuel => skipQualifiers fuel) env toks () env toks := by
  obtain ⟨s, p, toks', rfl, -⟩ := h
  exact .loop <| .yields_bind peekKind_yields .pure

theorem reads_star (ha : AfterType toks) (hs : ReadsStars env (.ptr type) toks type' rest) :
    ReadsStars env type (⟨s, .punct "*"⟩ :: toks) type' rest :=
  .loop <| .yields_bind eat_yields <| .bind ha.reads_qualifiers hs

theorem reads_stars_end : ReadsStars env type (⟨s, .punct ")"⟩ :: rest) type (⟨s, .punct ")"⟩ :: rest) :=
  .loop <| .yields_bind (eat_yields_false <| by simp) .pure

theorem tokens_of_cons {kind : TokenKind} {kinds : List TokenKind} (h : toks.map Token.kind = kind :: kinds) :
    ∃ s toks', toks = ⟨s, kind⟩ :: toks' ∧ toks'.map Token.kind = kinds := by
  obtain ⟨tok, toks', rfl, rfl, rfl⟩ := List.map_eq_cons_iff.mp h
  exact ⟨tok.span, toks', rfl, rfl⟩

theorem reads_words {words : List String} (hw : (type, words) ∈ typeWords)
    (ht : toks.map Token.kind = words.map .ident) : StartsType env toks ∧
      ∀ {rest}, AfterType rest → Reads (fun n _ => baseType (grammar n) n) env (toks ++ rest) type env rest := by
  simp only [typeWords, List.mem_cons, Prod.mk.injEq, List.not_mem_nil, or_false] at hw
  rcases hw with ⟨rfl, rfl⟩ | ⟨rfl, rfl⟩ | ⟨rfl, rfl⟩ | ⟨rfl, rfl⟩ | ⟨rfl, rfl⟩ | ⟨rfl, rfl⟩ | ⟨rfl, rfl⟩ |
    ⟨rfl, rfl⟩ | ⟨rfl, rfl⟩ | ⟨rfl, rfl⟩ | ⟨rfl, rfl⟩ | ⟨rfl, rfl⟩ | ⟨rfl, rfl⟩ | ⟨rfl, rfl⟩ | ⟨rfl, rfl⟩ |
    ⟨rfl, rfl⟩
  all_goals
    repeat
      obtain ⟨_, _, rfl, hs⟩ := tokens_of_cons ht
      clear ht
      rename' hs => ht
    obtain rfl := List.map_eq_nil_iff.mp ht
    exact ⟨⟨_, _, _, rfl, rfl, by decide⟩, fun ⟨_, _, _, ht, _⟩ => ht ▸ .of_yields fun _ _ => rfl⟩

theorem reads_tag {keyword : String} {mk : String → CType} {s₁ s₂ : Span} (ht : (keyword, mk) ∈ typeTags) :
    StartsType env [⟨s₁, .ident keyword⟩, ⟨s₂, .ident name⟩] ∧ ∀ {rest}, AfterType rest →
      Reads (fun n _ => baseType (grammar n) n) env ([⟨s₁, .ident keyword⟩, ⟨s₂, .ident name⟩] ++ rest) (mk name)
        env rest := by
  simp only [typeTags, List.mem_cons, Prod.mk.injEq, List.not_mem_nil, or_false] at ht
  rcases ht with ⟨rfl, rfl⟩ | ⟨rfl, rfl⟩ | ⟨rfl, rfl⟩
  all_goals
    refine ⟨⟨_, _, _, rfl, rfl, by decide⟩, ?_⟩
    rintro _ ⟨_, _, _, rfl, rfl | rfl⟩ <;> exact .of_yields fun _ _ => rfl

theorem reads_typedef (hl : scopeMapLookup name env.bindings = some (.type type)) (hn : name ∉ reservedTypeWords) :
    StartsType env [⟨s, .ident name⟩] ∧ ∀ {rest},
      Reads (fun n _ => baseType (grammar n) n) env (⟨s, .ident name⟩ :: rest) type env rest := by
  have hp : tokenStartsTypeInEnv env ⟨s, .ident name⟩ := by simp [tokenStartsTypeInEnv, parserEnvHasType, hl]
  simp only [reservedTypeWords, List.mem_append, not_or] at hn
  obtain ⟨⟨⟨hb, hq⟩, hu⟩, ha⟩ := hn
  refine ⟨⟨s, name, [], rfl, hp, hu, hq, ha⟩, fun {rest} => .yields_bind peek_yields ?_⟩
  have hy : Yields (lookupParserType name) env rest (some type) env rest := by
    have h : Yields (lookupParserType name) env rest _ env rest := lookupParserType_yields
    rwa [hl] at h
  simp only [builtinTypeNames, List.mem_cons, List.not_mem_nil, or_false, not_or] at hb
  simp only [hb, imp_self]
  exact .yields_bind advanceToken_yields <| .yields_bind hy .pure

theorem reads_typeName (ht : StartsType env toks) (ha : AfterType toks₁)
    (hb : Reads (fun n _ => baseType (grammar n) n) env toks type env toks₁)
    (hs : ReadsStars env type toks₁ type' rest) :
    Reads (fun n _ => typeName (grammar n) n) env toks type' env rest := by
  refine .bind (p := fun n _ => (grammar n).ctype) ?_ hs.diag
  exact .call <| .bind ht.reads_qualifiers.diag <| .bind hb <| .bind ha.reads_qualifiers.diag .pure

-- The stars that follow a type belong to it.
theorem reads_type (h : SpellsType env type toks) : StartsType env toks ∧
    ∀ {rest type' rest'}, AfterType rest → ReadsStars env type rest type' rest' →
      Reads (fun n _ => typeName (grammar n) n) env (toks ++ rest) type' env rest' := by
  induction h
  case words hw ht =>
    exact ⟨(reads_words hw ht).left, fun ha hs =>
      reads_typeName (reads_words hw ht).left.append ha ((reads_words hw ht).right ha) hs⟩
  case tag ht =>
    exact ⟨(reads_tag ht).left, fun ha hs =>
      reads_typeName (reads_tag ht).left.append ha ((reads_tag ht).right ha) hs⟩
  case typedef hl hn =>
    exact ⟨(reads_typedef hl hn).left, fun ha hs =>
      reads_typeName (reads_typedef hl hn).left.append ha (reads_typedef hl hn).right hs⟩
  case ptr hi =>
    refine ⟨hi.left.append, fun ha hs => ?_⟩
    rw [List.append_assoc]
    exact hi.right ⟨_, _, _, rfl, .inl rfl⟩ <| reads_star ha hs

end Types
end Expressions
end Hcc.Parser
