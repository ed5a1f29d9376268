import Hcc.Parser.Theorems.Reads

namespace Hcc.Parser

section Strings

variable {byte : Int} {bytes : List Int} {text : List Char}

theorem hexDigit_hexDigitChar (h : 0 ≤ byte ∧ byte < 16) :
    isHexDigit (hexDigitChar byte) ∧ hexDigit (hexDigitChar byte) = byte := by
  have hd : ∀ d : Fin 16, isHexDigit (hexDigitChar d.val) ∧ hexDigit (hexDigitChar d.val) = d.val := by decide
  have hb := hd ⟨byte.toNat, by omega⟩
  rwa [Int.toNat_of_nonneg h.left] at hb

theorem readHexEscape_hexPair (h : 0 ≤ byte ∧ byte < 256) (ht : ∀ c ∈ text.head?, isHexDigit c = false) :
    readHexEscape (hexPair byte ++ text) = (byte, text) := by
  have ⟨h₁, h₂⟩ := @hexDigit_hexDigitChar (byte / 16 % 16) (by omega)
  have ⟨h₃, h₄⟩ := @hexDigit_hexDigitChar (byte % 16) (by omega)
  have hr : ∀ value, readHexEscapeFrom value text = (value, text, false) := by
    intro value
    cases text
    case nil  => rfl
    case cons => simp [readHexEscapeFrom, ht _ rfl]
  simp only [hexPair, readHexEscape, List.cons_append, List.nil_append, readHexEscapeFrom, h₁, h₃, hr, if_true, h₂, h₄]
  exact Prod.ext (by simp; omega) rfl

theorem stringBytesFrom_hexEscape (h : ∀ byte ∈ bytes, 0 ≤ byte ∧ byte < 256) :
    stringBytesFrom (bytes.flatMap hexEscape) = bytes ++ [0] := by
  induction bytes
  case nil => simp [stringBytesFrom]
  case cons byte bytes hi =>
    obtain ⟨hb, hbs⟩ := List.forall_mem_cons.mp h
    have ht : ∀ c ∈ (bytes.flatMap hexEscape).head?, isHexDigit c = false := by
      cases bytes
      case nil  => simp
      case cons => simp [hexEscape]; decide
    have hd : decodeEscape ('x' :: (hexPair byte ++ bytes.flatMap hexEscape)) = (byte, bytes.flatMap hexEscape) :=
      readHexEscape_hexPair hb ht
    rw [List.flatMap_cons, hexEscape, List.cons_append, List.cons_append, stringBytesFrom]
    simp only [hd, hi hbs, List.cons_append]

theorem joinStrings_hexEscape (h : ∀ byte ∈ bytes, 0 ≤ byte ∧ byte < 256)
    (ht : text = '"' :: bytes.flatMap hexEscape ++ ['"']) : joinStrings [text] = text := by
  have hb : literalContentBytes text = bytes := by
    rw [literalContentBytes, stringBytes, ht, List.cons_append, stripLeadingQuote, stripTrailingQuote,
      List.reverse_append, List.reverse_singleton, List.singleton_append, stripLeadingQuote, List.reverse_reverse,
      stringBytesFrom_hexEscape h, List.dropLast_concat]
  rw [joinStrings, List.flatMap_singleton, hb, ht]

end Strings
section Printing

-- A primary expression. A parenthesis is distinguished for the sake of `sizeof`.
inductive ReadsPrimary (env : ParserEnv) : List Token → Expr → List Token → Prop
  | group : tokenStartsTypeInEnv env tok = false →
    ReadsExpression env 0 (tok :: toks) e (⟨s₂, .punct ")"⟩ :: rest) →
    ReadsPrimary env (⟨s₁, .punct "("⟩ :: tok :: toks) e rest
  | plain : tok.kind ≠ .punct "(" → ReadsUnary env (tok :: toks) e rest → ReadsPrimary env (tok :: toks) e rest

-- The operators that can follow an operand on its right, without being read as a part of it.
def rightPrec (prec : Int) : Int :=
  if prec = 1 ∨ prec = 2 then prec else prec + 1

-- An expression that is printed as an operand of an operator is read back, whatever follows it.
structure ReadsBack (env : ParserEnv) (prec : Int) (e : Expr) (toks : List Token) : Prop where
  start      : StartsExpr env toks
  expression : m ≤ prec → Stops (rightPrec prec) rest → ReadsOperators env m e rest e' rest' →
    ReadsExpression env m (toks ++ rest) e' rest'
  operand    : castPrec ≤ prec → Ends rest →
    ∃ u toks₁, ReadsUnary env (toks ++ rest) u toks₁ ∧ ReadsSuffixes env u toks₁ e rest
  unary      : unaryPrec ≤ prec → Ends rest →
    ∃ u toks₁, ReadsPrimary env (toks ++ rest) u toks₁ ∧ ReadsSuffixes env u toks₁ e rest
  suffixes   : suffixPrec ≤ prec → ¬IsString rest → ReadsSuffixes env e rest e' rest' →
    ∃ u toks₁, ReadsPrimary env (toks ++ rest) u toks₁ ∧ ReadsSuffixes env u toks₁ e' rest'

variable {env : ParserEnv} {toks toks₁ toks₂ rest rest' : List Token} {tok : Token} {s s₁ s₂ : Span}
variable {e e' u : Expr} {prec p m : Int} {op name : String}

theorem ReadsPrimary.unary (h : ReadsPrimary env toks e rest) : ReadsUnary env toks e rest := by
  cases h
  case group ht he => exact reads_unary_group ht he
  case plain hu    => exact hu

theorem ReadsPrimary.sizeofExpr (h : ReadsPrimary env toks u toks₁) (hs : ReadsSuffixes env u toks₁ e rest) :
    ReadsUnary env (⟨s, .ident "sizeof"⟩ :: toks) (.sizeofExpr e) rest := by
  cases h
  case group ht he => exact reads_unary_sizeof_group ht he hs
  case plain ht hu => exact reads_unary_sizeof ht hu hs

theorem le_rightPrec : prec ≤ rightPrec prec := by
  unfold rightPrec
  split <;> omega

theorem rightPrec_le (hp : prec ≤ p) : rightPrec prec ≤ p + 1 := by
  unfold rightPrec
  split <;> omega

section Operators

variable {l r : Expr} {assoc : Assoc}

theorem binop_bounds (h : binop op = some (p, assoc)) :
    p < castPrec ∧ (assoc = .left → rightPrec p = p + 1) ∧ op ∉ ["(", "[", ".", "->", "++", "--"] := by
  unfold binop at h
  split at h
  case isTrue ho =>
    cases h
    subst ho
    decide
  case isFalse =>
    split at h
    case isTrue ho =>
      cases h
      refine ⟨by decide, nofun, ?_⟩
      simp only [List.mem_cons, List.not_mem_nil, or_false] at ho
      rcases ho with rfl | rfl | rfl | rfl | rfl | rfl | rfl | rfl | rfl | rfl | rfl <;> decide
    case isFalse =>
      unfold binopArith at h
      split at h <;> cases h <;> decide

theorem binop_stops (h : binop op = some (p, assoc)) (hm : p < m) : Stops m (⟨s, .punct op⟩ :: rest) := by
  refine stops_punct (binop_bounds h).right.right ?_ fun ho => ?_
  · rintro rfl
    exact nomatch binop_question ▸ h
  · obtain ⟨rfl, -⟩ := Prod.mk.inj <| Option.some.inj <| ho.symm.trans h
    exact hm

theorem assignNode_left (h : binop op = some (p, .left)) : assignNode op l r = .binary op l r := by
  unfold assignNode
  split
  case h_12 => rfl
  all_goals exact nomatch h

theorem assignNode_compound (h : op ∈ compoundOperators) :
    binop (op ++ "=") = some (1, .right) ∧ ∀ l r, assignNode (op ++ "=") l r = .compoundAssign op l r := by
  simp only [compoundOperators, List.mem_cons, List.not_mem_nil, or_false] at h
  rcases h with rfl | rfl | rfl | rfl | rfl | rfl | rfl | rfl | rfl | rfl <;> exact ⟨rfl, fun _ _ => rfl⟩

end Operators

namespace ReadsBack

theorem of_operand (hp : prec ≤ castPrec) (start : StartsExpr env toks)
    (h : ∀ {rest}, Ends rest → ∃ u toks₁, ReadsUnary env (toks ++ rest) u toks₁ ∧ ReadsSuffixes env u toks₁ e rest) :
    ReadsBack env prec e toks where
  start             := start
  expression _ hs ho :=
    have ⟨_, _, hu, hx⟩ := h hs.toEnds
    reads_expression hu hx ho
  operand _ he      := h he
  unary hu _        := absurd (Int.le_trans hu hp) (by decide)
  suffixes hu _ _   := absurd (Int.le_trans hu hp) (by decide)

theorem of_unary (hp : prec ≤ unaryPrec) (start : StartsExpr env toks)
    (h : ∀ {rest}, Ends rest → ∃ u toks₁, ReadsPrimary env (toks ++ rest) u toks₁ ∧ ReadsSuffixes env u toks₁ e rest) :
    ReadsBack env prec e toks where
  start             := start
  expression _ hs ho :=
    have ⟨_, _, hu, hx⟩ := h hs.toEnds
    reads_expression hu.unary hx ho
  operand _ he      :=
    have ⟨_, _, hu, hx⟩ := h he
    ⟨_, _, hu.unary, hx⟩
  unary _ he        := h he
  suffixes hu _ _   := absurd (Int.le_trans hu hp) (by decide)

theorem of_suffixes (start : StartsExpr env toks)
    (h : ∀ {rest e' rest'}, ¬IsString rest → ReadsSuffixes env e rest e' rest' →
      ∃ u toks₁, ReadsPrimary env (toks ++ rest) u toks₁ ∧ ReadsSuffixes env u toks₁ e' rest') :
    ReadsBack env prec e toks where
  start             := start
  expression _ hs ho :=
    have ⟨_, _, hu, hx⟩ := h hs.not_string <| reads_suffix_end hs.not_suffix
    reads_expression hu.unary hx ho
  operand _ he      :=
    have ⟨_, _, hu, hx⟩ := h he.not_string <| reads_suffix_end he.not_suffix
    ⟨_, _, hu.unary, hx⟩
  unary _ he        := h he.not_string <| reads_suffix_end he.not_suffix
  suffixes _ hs hx  := h hs hx

theorem of_operators (hp : prec < castPrec) (start : StartsExpr env toks)
    (h : ∀ {m rest e' rest'}, m ≤ prec → Stops (rightPrec prec) rest → ReadsOperators env m e rest e' rest' →
      ReadsExpression env m (toks ++ rest) e' rest') : ReadsBack env prec e toks where
  start             := start
  expression        := h
  operand hu _      := absurd hp (Int.not_lt.mpr hu)
  unary hu _        := absurd hp (Int.not_lt.mpr <| Int.le_trans (by decide) hu)
  suffixes hu _ _   := absurd hp (Int.not_lt.mpr <| Int.le_trans (by decide) hu)

-- A token that is a primary expression.
theorem of_token (ht : tokenStartsTypeInEnv env tok = false) (hk : ∀ p, tok.kind ≠ .punct p)
    (h : ∀ {rest}, ¬IsString rest → ReadsUnary env (tok :: rest) e rest) : ReadsBack env prec e [tok] :=
  .of_suffixes ⟨tok, [], rfl, ht, hk _⟩ fun hs hx => ⟨e, _, .plain (hk _) (h hs), hx⟩

-- The whole operand is read.
theorem reads (h : ReadsBack env prec e toks) (hm : m ≤ prec) (hs : Stops (rightPrec prec) rest) (hs' : Stops m rest) :
    ReadsExpression env m (toks ++ rest) e rest :=
  h.expression hm hs <| reads_operators_end hs'

theorem argument (h : ReadsBack env 1 e toks) : ReadsArgument env e toks where
  start    := h.start
  reads hs := h.reads (by decide) hs hs

theorem group (h : ReadsBack env 0 e toks) :
    ReadsBack env prec e (⟨s₁, .punct "("⟩ :: toks ++ [⟨s₂, .punct ")"⟩]) := by
  refine .of_suffixes ⟨_, _, rfl, rfl, by simp⟩ fun _ hx => ⟨e, _, ?_, hx⟩
  obtain ⟨tok, toks', rfl, ht, -⟩ := h.start
  simp only [List.cons_append, List.append_assoc]
  exact .group ht <| h.reads (by decide) (stops_closing <| by decide) (stops_closing <| by decide)

theorem suffix {e₁ : Expr} (h : ReadsBack env suffixPrec e toks) (hn : ∀ {rest}, ¬IsString (toks₁ ++ rest))
    (hx : ∀ {rest e' rest'}, ReadsSuffixes env e₁ rest e' rest' → ReadsSuffixes env e (toks₁ ++ rest) e' rest') :
    ReadsBack env prec e₁ (toks ++ toks₁) := by
  refine .of_suffixes h.start.append fun _ hs => ?_
  rw [List.append_assoc]
  exact h.suffixes le_rfl hn (hx hs)

theorem unaryOperator (hp : prec ≤ unaryPrec) (ho : op ∈ prefixOperators) (h : ReadsBack env castPrec e toks) :
    ReadsBack env prec (.unary op e) (⟨s, .punct op⟩ :: toks) := by
  have hk : ∀ p, p ∉ prefixOperators → TokenKind.punct op ≠ .punct p := by
    rintro p hp ⟨⟩
    exact hp ho
  refine .of_unary hp ⟨_, _, rfl, rfl, hk _ (by decide)⟩ fun he => ?_
  have ⟨u, toks₁, hu, hx⟩ := h.operand le_rfl he
  exact ⟨_, _, .plain (hk _ (by decide)) <| reads_unary_prefix ho hu hx, reads_suffix_end he.not_suffix⟩

theorem sizeofExpr (hp : prec ≤ unaryPrec) (ht : parserEnvHasType "sizeof" env = false)
    (h : ReadsBack env unaryPrec e toks) :
    ReadsBack env prec (.sizeofExpr e) (⟨s, .ident "sizeof"⟩ :: toks) := by
  refine .of_unary hp ⟨_, _, rfl, ?_, by simp⟩ fun he => ?_
  · simp [tokenStartsTypeInEnv, ht, startsType, builtinTypeNames, storageAndTypeQualifiers]
  · obtain ⟨u, toks₁, hu, hx⟩ := h.unary le_rfl he
    exact ⟨_, _, .plain (by simp) <| hu.sizeofExpr hx, reads_suffix_end he.not_suffix⟩

theorem cast {type : CType} (hp : prec ≤ castPrec) (ht : SpellsType env type toks₁) (h : ReadsBack env castPrec e toks) :
    ReadsBack env prec (.cast type e) (⟨s₁, .punct "("⟩ :: toks₁ ++ ⟨s₂, .punct ")"⟩ :: toks) := by
  refine .of_operand hp ⟨_, _, rfl, rfl, by simp⟩ fun {rest} he => ?_
  have ⟨u, toks₂, hu, hx⟩ := h.operand le_rfl he
  have ⟨hs, hr⟩ := reads_type ht
  have ha : AfterType (⟨s₂, .punct ")"⟩ :: toks ++ rest) := ⟨_, _, _, rfl, .inr rfl⟩
  have hr := hr ha reads_stars_end
  obtain ⟨_, _, _, rfl, ht, -⟩ := hs
  rw [List.append_assoc]
  exact ⟨_, _, reads_unary_cast ht hr hu hx, reads_suffix_end he.not_suffix⟩

section Operators

variable {l r c yes no : Expr} {lToks rToks cToks yesToks noToks : List Token}

theorem binary (hp : prec ≤ p) (ho : binop op = some (p, .left)) (hl : ReadsBack env p l lToks)
    (hr : ReadsBack env (p + 1) r rToks) :
    ReadsBack env prec (.binary op l r) (lToks ++ ⟨s, .punct op⟩ :: rToks) := by
  have ⟨hc, hq, _⟩ := binop_bounds ho
  refine .of_operators (Int.lt_of_le_of_lt hp hc) hl.start.append fun hm hs hx => ?_
  rw [List.append_assoc]
  refine hl.expression (Int.le_trans hm hp) (binop_stops ho <| by rw [hq rfl]; omega) ?_
  have hs := hs.mono <| rightPrec_le hp
  exact reads_operator_left ho (Int.le_trans hm hp) (hr.reads le_rfl (hs.mono le_rightPrec) hs)
    (assignNode_left ho ▸ hx)

theorem assignment (hp : prec ≤ 1) (ho : binop op = some (1, .right)) (hl : ReadsBack env 2 l lToks)
    (hr : ReadsBack env 1 r rToks) :
    ReadsBack env prec (assignNode op l r) (lToks ++ ⟨s, .punct op⟩ :: rToks) := by
  refine .of_operators (Int.lt_of_le_of_lt hp <| by decide) hl.start.append fun hm hs hx => ?_
  rw [List.append_assoc]
  refine hl.expression (by omega) (binop_stops ho <| by decide) ?_
  have hs := hs.mono <| show rightPrec _ ≤ 1 by unfold rightPrec; split <;> omega
  exact reads_operator_right ho (Int.le_trans hm hp) (hr.reads le_rfl hs hs) hx

theorem cond (hp : prec ≤ 2) (hc : ReadsBack env 3 c cToks) (hy : ReadsBack env 0 yes yesToks)
    (hn : ReadsBack env 2 no noToks) :
    ReadsBack env prec (.cond c yes no) (cToks ++ ⟨s₁, .punct "?"⟩ :: yesToks ++ ⟨s₂, .punct ":"⟩ :: noToks) := by
  have hq : ∀ {m rest}, 2 < m → Stops m (⟨s₁, .punct "?"⟩ :: rest) := fun hm =>
    stops_punct (by decide) (fun _ => hm) fun ho => nomatch binop_question ▸ ho
  have hs' : ∀ {m rest}, Stops m (⟨s₂, .punct ":"⟩ :: rest) := stops_closing (by decide)
  refine .of_operators (Int.lt_of_le_of_lt hp <| by decide) hc.start.append.append fun hm hs hx => ?_
  simp only [List.append_assoc, List.cons_append]
  refine hc.expression (by omega) (hq <| by decide) ?_
  have hs := hs.mono <| show rightPrec _ ≤ 2 by unfold rightPrec; split <;> omega
  exact reads_operator_cond (Int.le_trans hm hp) (hy.reads le_rfl hs' hs') (hn.reads le_rfl hs hs) hx

end Operators
end ReadsBack

theorem prints_readsBack (h : Prints env prec e toks) : ReadsBack env prec e toks := by
  induction h
  case group hi => exact hi.group
  case int   => exact .of_token rfl (by simp) fun _ => reads_unary_int
  case float => exact .of_token rfl (by simp) fun _ => reads_unary_float
  case char  => exact .of_token rfl (by simp) fun _ => reads_unary_char
  case string hb ht =>
    exact .of_token rfl (by simp) fun hs => reads_unary_string (joinStrings_hexEscape hb ht) hs
  case var hn => exact .of_token (hn.not_type _) (by simp) fun _ => reads_unary_var hn
  case call _ _ hi ha =>
    rw [List.append_assoc]
    refine hi.suffix (by simp [IsString]) fun hx => ?_
    simp only [List.cons_append, List.append_assoc]
    exact reads_suffix_call (reads_arguments fun arg h => (ha arg h).argument) hx
  case index _ hi hx =>
    rw [List.append_assoc]
    refine hi.suffix (by simp [IsString]) fun hs => ?_
    simp only [List.cons_append, List.append_assoc]
    exact reads_suffix_index (hx.reads le_rfl (stops_closing <| by decide) (stops_closing <| by decide)) hs
  case member hi     => exact hi.suffix (by simp [IsString]) reads_suffix_member
  case ptrMember hi  => exact hi.suffix (by simp [IsString]) reads_suffix_ptrMember
  case postIncDec ho _ hi => exact hi.suffix (by simp [IsString]) <| reads_suffix_incDec ho
  case unary hp ho _ hi   => exact .unaryOperator hp ho hi
  case sizeofExpr hp ht _ hi => exact .sizeofExpr hp ht hi
  case cast hp ht _ hi => exact .cast hp ht hi
  case binary hp ho _ _ hl hr => exact .binary hp ho hl hr
  case cond hp _ _ _ hc hy hn => exact .cond hp hc hy hn
  case assign hp _ _ hl hr =>
    have ho : binop "=" = some (1, .right) := rfl
    exact .assignment hp ho hl hr
  case compoundAssign hp ho _ _ hl hr =>
    obtain ⟨ho, ha⟩ := assignNode_compound ho
    exact ha _ _ ▸ .assignment hp ho hl hr

theorem stops_nil : Stops m [] where
  not_suffix := rfl
  not_string := by simp [IsString]
  operator   := nofun

-- An expression that is printed with parentheses where they are needed is parsed to the same expression.
theorem expr_prints (h : Prints env 0 e toks) :
    ∃ m, ∀ n ≥ m, (expr (grammar n) env toks).map forceConsumed = some (.ok e env []) := by
  have ⟨m, hr⟩ := (prints_readsBack h).reads le_rfl stops_nil stops_nil
  exact ⟨m, fun n hn => toks.append_nil ▸ hr n hn n hn⟩

end Printing

section Examples

def tokensOf : List TokenKind → List Token :=
  List.map (⟨⟨⟨1, 1⟩, ⟨1, 1⟩⟩, ·⟩)

-- a - (b - c)
theorem expr_prints_sub : ∃ m, ∀ n ≥ m, (expr (grammar n) (initialParserEnv 64)
    (tokensOf [.ident "a", .punct "-", .punct "(", .ident "b", .punct "-", .ident "c", .punct ")"])).map
      forceConsumed =
    some (.ok (.binary "-" (.var "a") (.binary "-" (.var "b") (.var "c"))) (initialParserEnv 64) []) := by
  have hv : ∀ name ∈ ["a", "b", "c"], IsOrdinary (initialParserEnv 64) name := by
    intro name hn
    simp only [List.mem_cons, List.not_mem_nil, or_false] at hn
    rcases hn with rfl | rfl | rfl <;> exact ⟨by decide, fun _ => rfl, nofun⟩
  have hs : Prints (initialParserEnv 64) 0 (.binary "-" (.var "b") (.var "c"))
      (tokensOf [.ident "b", .punct "-", .ident "c"]) :=
    .binary (by decide) rfl (.var <| hv _ (by decide)) (.var <| hv _ (by decide))
  exact expr_prints <| .binary (by decide) rfl (.var <| hv _ (by decide)) hs.group

-- (int (*)(int)) x
theorem expr_functionPointerCast : ¬∃ m, ∀ n ≥ m, (expr (grammar n) (initialParserEnv 64)
    (tokensOf [.punct "(", .ident "int", .punct "(", .punct "*", .punct ")", .punct "(", .ident "int", .punct ")",
      .punct ")", .ident "x"])).map forceConsumed =
    some (.ok (.cast (.ptr (.func .int [.int])) (.var "x")) (initialParserEnv 64) []) := by
  rintro ⟨m, h⟩
  exact nomatch h (m + 20) (by omega)

end Examples
end Hcc.Parser
