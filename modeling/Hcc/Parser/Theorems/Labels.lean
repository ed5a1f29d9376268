import Hcc.Parser.Theorems.Constants
import Hcc.Parser.Theorems.Reads

namespace Hcc.Parser

variable {g : Grammar} {n fuel : Nat} {env env' env₁ env₂ env₃ : ParserEnv}
variable {toks toks₁ toks₂ rest before after : List Token} {s s₁ s₂ s₃ : Span}

section View

-- Two environments with the same view of the names, from scopes that are search trees.
structure SameView (x y : ParserEnv) : Prop where
  left        : x.bindings.current.Ordered
  right       : y.bindings.current.Ordered
  lookup name : scopeMapLookup name x.bindings = scopeMapLookup name y.bindings
  constants   : x.constants = y.constants
  bits        : x.bits = y.bits

theorem SameView.enter (env : ParserEnv) :
    SameView (enterParserScope env) (enterParserScope (enterParserScope env)) :=
  ⟨SymbolMap.ordered_empty, SymbolMap.ordered_empty, fun _ => rfl, rfl, rfl⟩

instance : EnvRelation SameView where
  lookup h    := h.lookup
  constants h := h.constants
  bits h      := h.bits
  enter h     := ⟨SymbolMap.ordered_empty, SymbolMap.ordered_empty, h.lookup, h.constants, h.bits⟩
  bind name binding := {
    alike x y toks := fun h => by
      unfold bindParserName
      split
      case isFalse => exact .unconsumedOk _ _ h
      case isTrue =>
        refine .unconsumedOk _ _ ⟨h.left.insert, h.right.insert, fun key => ?_, ?_, h.bits⟩
        · simp only [scopeMapLookup_insert h.left, scopeMapLookup_insert h.right, h.lookup]
        · simp only [h.lookup, h.constants] }

end View

section Statements

-- The words that start a statement of their own.
def statementWords : List String :=
  ["typedef", "return", "if", "while", "do", "for", "switch", "case", "default", "break", "continue",
   "goto"]

-- The tokens start with a label, which is the element of the tree.
inductive ReadsLabel (g : Grammar) (env : ParserEnv) : List Token → Stmt → ParserEnv → List Token → Prop
  | goto (name : String) (s t : Span) (rest : List Token) : name ∉ statementWords →
    ReadsLabel g env (⟨s, .ident name⟩ :: ⟨t, .punct ":"⟩ :: rest) (.sLabel name) env rest
  | case (s t : Span) (toks rest : List Token) (value : Expr) (env' : ParserEnv) :
    Yields (expr g) env toks value env' (⟨t, .punct ":"⟩ :: rest) →
    ReadsLabel g env (⟨s, .ident "case"⟩ :: toks) (.sCase value) env' rest
  | default (s t : Span) (rest : List Token) :
    ReadsLabel g env (⟨s, .ident "default"⟩ :: ⟨t, .punct ":"⟩ :: rest) .sDefault env rest

inductive ReadsLabels (g : Grammar) :
    ParserEnv → List Token → List Stmt → ParserEnv → List Token → Prop
  | nil (env : ParserEnv) (rest : List Token) : ReadsLabels g env rest [] env rest
  | cons (env env₁ env₂ : ParserEnv) (toks toks₁ rest : List Token) (item : Stmt) (items : List Stmt) :
    ReadsLabel g env toks item env₁ toks₁ →
    ReadsLabels g env₁ toks₁ items env₂ rest → ReadsLabels g env toks (item :: items) env₂ rest

theorem tokenStartsType_yields {tok : Token} :
    Yields (tokenStartsType tok) env (tok :: toks) (tokenStartsTypeInEnv env tok) env (tok :: toks) :=
  (Yields.bind_iff .peek).mp nextStartsType_yields

theorem peekSecondPunct_yields {tok : Token} {p : String} :
    Yields (peekSecondPunct p) env (tok :: ⟨s, .punct p⟩ :: toks) true env (tok :: ⟨s, .punct p⟩ :: toks) := by
  simp [Yields, peekSecondPunct, pRaw, forceConsumed]

theorem ReadsLabel.yields {item : Stmt} (h : ReadsLabel g env toks item env₁ toks₁) :
    Yields (stmt g n (fuel + 1)) env toks item env₁ toks₁ := by
  cases h
  case goto name s t hn =>
    simp only [statementWords, List.mem_cons, List.not_mem_nil, or_false, not_or] at hn
    rw [stmt, Yields.bind_iff peek_yields, Yields.bind_iff tokenStartsType_yields]
    split
    case h_14 h => 
      cases h
      exact .bind peekSecondPunct_yields <| .bind advanceToken_yields <| .bind needPunct_yields .pure
    all_goals simp_all
  case case s t toks value h =>
    rw [stmt, Yields.bind_iff peek_yields, Yields.bind_iff tokenStartsType_yields]
    exact .bind advanceToken_yields <| .bind h <| .bind needPunct_yields .pure
  case default s t =>
    rw [stmt, Yields.bind_iff peek_yields, Yields.bind_iff tokenStartsType_yields]
    exact .bind advanceToken_yields <| .bind needPunct_yields .pure

theorem unary_rejects {e : Expr} :
    ¬Yields (unary g n fuel) env (⟨s, .punct "\x7d"⟩ :: toks) e env' rest := by
  intro h
  cases fuel
  case zero => cases h
  case succ =>
    rw [unary, Yields.bind_iff peek_yields] at h
    cases h

theorem stmt_rejects {m : Nat} {t : Stmt} :
    ¬Yields (stmt (grammar m) n fuel) env (⟨s, .punct "\x7d"⟩ :: toks) t env' rest := by
  intro h
  cases fuel
  case zero => cases h
  case succ =>
    rw [stmt, Yields.bind_iff peek_yields, Yields.bind_iff tokenStartsType_yields] at h
    have ⟨_, _, _, h, _⟩ := Yields.exists_of_bind (p := expr (grammar m)) h
    cases m
    case zero => cases h
    case succ =>
      have ⟨_, _, _, h, _⟩ := Yields.exists_of_bind h
      exact unary_rejects h

variable {item first body : Stmt} {items more : List Stmt} {p : Parser Stmt}

theorem ReadsLabel.eat_yields {q : String} (h : ReadsLabel g env toks item env₁ toks₁) :
    Yields (eatPunct q) env toks false env toks := by
  apply eat_yields_false
  cases h <;> simp

theorem ReadsLabels.manyUntil {k : Nat} (h : ReadsLabels g env toks items env₁ toks₁)
    (hm : Yields (pManyUntil (eatPunct "\x7d") (stmt g n (fuel + 1)) k) env₁ toks₁ more env₂ rest) :
    Yields (pManyUntil (eatPunct "\x7d") (stmt g n (fuel + 1)) (k + items.length)) env toks
      (items ++ more) env₂ rest := by
  induction h
  case nil => exact hm
  case cons hl _ hi => exact .manyUntil_cons hl.eat_yields hl.yields <| hi hm

theorem stmtAsBlock_braces
    (h : Yields (pManyUntil (eatPunct "\x7d") p n) (enterParserScope (enterParserScope env)) toks items
      env₁ rest) :
    Yields (stmtAsBlock n p) env (⟨s, .punct "\x7b"⟩ :: toks) [.sBlock items] env rest := by
  refine yields_scope_iff.mpr ⟨rfl, enterParserScope env, .bind peek_yields ?_⟩
  exact .bind (.bind needPunct_yields <| yields_scope_iff.mpr ⟨rfl, _, h⟩) .pure

-- A label takes the element after it along.
theorem stmtAsBlock_label {tok : Token} {name : String} (ht : tok.kind ≠ .punct "\x7b")
    (h : Yields p (enterParserScope env) (tok :: toks) (.sLabel name) env₁ toks₁)
    (hb : Yields p env₁ toks₁ body env₂ rest) :
    Yields (stmtAsBlock n p) env (tok :: toks) [.sLabel name, body] env rest := by
  refine yields_scope_iff.mpr ⟨rfl, env₂, .bind peek_yields ?_⟩
  split
  case h_1 => contradiction
  case h_2 => exact .bind h <| .bind hb .pure

-- Anything else is the body on its own.
theorem stmtAsBlock_single {tok : Token} (ht : tok.kind ≠ .punct "\x7b")
    (h : Yields p (enterParserScope env) (tok :: toks) first env₁ rest)
    (hf : ∀ name, first ≠ .sLabel name) :
    Yields (stmtAsBlock n p) env (tok :: toks) [first] env rest := by
  refine yields_scope_iff.mpr ⟨rfl, env₁, .bind peek_yields ?_⟩
  split
  case h_1 => contradiction
  case h_2 =>
    refine .bind h ?_
    split
    case h_1 => exact absurd rfl <| hf _
    case h_2 => exact .pure

end Statements

section Controls

variable {cond value : Expr} {t : Stmt} {body items : List Stmt} {p : Parser Stmt} {α : Type}

-- The tokens are a condition in parentheses.
inductive ReadsCondition (g : Grammar) (env : ParserEnv) : List Token → Expr → ParserEnv → Prop
  | intro (s t : Span) (toks : List Token) (cond : Expr) (env' : ParserEnv) :
    (∀ more, Yields (expr g) env (toks ++ ⟨t, .punct ")"⟩ :: more) cond env' (⟨t, .punct ")"⟩ :: more)) →
    ReadsCondition g env (⟨s, .punct "("⟩ :: toks ++ [⟨t, .punct ")"⟩]) cond env'

theorem ReadsCondition.bind_iff {f : Expr → Parser α} {a : α} (h : ReadsCondition g env toks cond env₁) :
    Yields (do needPunct "("; let cond ← expr g; needPunct ")"; f cond) env (toks ++ toks₁) a env' rest ↔
      Yields (f cond) env₁ toks₁ a env' rest := by
  cases h
  case intro s t toks h =>
    rw [List.append_assoc, List.cons_append, List.cons_append, List.nil_append]
    rw [Yields.bind_iff needPunct_yields, Yields.bind_iff (h toks₁), Yields.bind_iff needPunct_yields]

-- The tokens around the body of a statement that controls it, and the tree for the body.
inductive Controls (g : Grammar) (n fuel : Nat) (env : ParserEnv) :
    List Token → ParserEnv → List Token → List Token → (List Stmt → Stmt) → Prop
  | ifThen (s : Span) (toks rest : List Token) (cond : Expr) (env₁ : ParserEnv) :
    ReadsCondition g (enterParserScope env) toks cond env₁ →
    (∀ tok ∈ rest.head?, tok.kind ≠ .ident "else") →
    Controls g n fuel env (⟨s, .ident "if"⟩ :: toks) env₁ [] rest fun body => .sIf cond body []
  | ifElse (s t : Span) (toks arm rest : List Token) (cond : Expr) (no : List Stmt) (env₁ : ParserEnv) :
    ReadsCondition g (enterParserScope env) toks cond env₁ →
    Yields (stmtAsBlock n (stmt g n fuel)) env₁ (arm ++ rest) no env₁ rest →
    Controls g n fuel env (⟨s, .ident "if"⟩ :: toks) env₁ (⟨t, .ident "else"⟩ :: arm) rest
      fun body => .sIf cond body no
  | elseArm (s t : Span) (toks arm rest : List Token) (cond : Expr) (yes : List Stmt)
      (env₁ : ParserEnv) :
    ReadsCondition g (enterParserScope env) toks cond env₁ →
    (∀ more, Yields (stmtAsBlock n (stmt g n fuel)) env₁ (arm ++ ⟨t, .ident "else"⟩ :: more) yes env₁
      (⟨t, .ident "else"⟩ :: more)) →
    Controls g n fuel env (⟨s, .ident "if"⟩ :: toks ++ arm ++ [⟨t, .ident "else"⟩]) env₁ [] rest
      fun body => .sIf cond yes body
  | while (s : Span) (toks rest : List Token) (cond : Expr) (env₁ : ParserEnv) :
    ReadsCondition g (enterParserScope env) toks cond env₁ →
    Controls g n fuel env (⟨s, .ident "while"⟩ :: toks) env₁ [] rest fun body => .sWhile cond body
  | doWhile (s t u : Span) (toks rest : List Token) (cond : Expr) (env₁ : ParserEnv) :
    ReadsCondition g (enterParserScope env) toks cond env₁ →
    Controls g n fuel env [⟨s, .ident "do"⟩] (enterParserScope env)
      (⟨t, .ident "while"⟩ :: toks ++ [⟨u, .punct ";"⟩]) rest fun body => .sDoWhile body cond
  | for (s t : Span) (toks₁ toks₂ toks₃ rest : List Token) (initClause : ForInit)
      (cond stepExpr : Option Expr) (env₁ env₂ env₃ : ParserEnv) :
    (∀ more, Yields (forInit g n) (enterParserScope env) (toks₁ ++ more) initClause env₁ more) →
    (∀ more, Yields (optionalExprUntil g ";") env₁ (toks₂ ++ more) cond env₂ more) →
    (∀ more, Yields (optionalExprUntil g ")") env₂ (toks₃ ++ more) stepExpr env₃ more) →
    Controls g n fuel env (⟨s, .ident "for"⟩ :: ⟨t, .punct "("⟩ :: toks₁ ++ toks₂ ++ toks₃) env₃ [] rest
      fun body => .sFor initClause cond stepExpr body
  | switch (s : Span) (toks rest : List Token) (value : Expr) (env₁ : ParserEnv) :
    ReadsCondition g (enterParserScope env) toks value env₁ →
    Controls g n fuel env (⟨s, .ident "switch"⟩ :: toks) env₁ [] rest fun body => .sSwitch value body

theorem stmt_if : Yields (stmt g n (fuel + 1)) env (⟨s, .ident "if"⟩ :: toks) t env' rest ↔
    Yields (parseIf g n (stmt g n fuel)) env toks t env' rest := by
  rw [stmt, Yields.bind_iff peek_yields, Yields.bind_iff tokenStartsType_yields]
  exact Yields.bind_iff advanceToken_yields

theorem stmt_while : Yields (stmt g n (fuel + 1)) env (⟨s, .ident "while"⟩ :: toks) t env' rest ↔
    Yields (parseWhile g n (stmt g n fuel)) env toks t env' rest := by
  rw [stmt, Yields.bind_iff peek_yields, Yields.bind_iff tokenStartsType_yields]
  exact Yields.bind_iff advanceToken_yields

theorem stmt_do : Yields (stmt g n (fuel + 1)) env (⟨s, .ident "do"⟩ :: toks) t env' rest ↔
    Yields (parseDoWhile g n (stmt g n fuel)) env toks t env' rest := by
  rw [stmt, Yields.bind_iff peek_yields, Yields.bind_iff tokenStartsType_yields]
  exact Yields.bind_iff advanceToken_yields

theorem stmt_for : Yields (stmt g n (fuel + 1)) env (⟨s, .ident "for"⟩ :: toks) t env' rest ↔
    Yields (parseFor g n (stmt g n fuel)) env toks t env' rest := by
  rw [stmt, Yields.bind_iff peek_yields, Yields.bind_iff tokenStartsType_yields]
  exact Yields.bind_iff advanceToken_yields

theorem stmt_switch : Yields (stmt g n (fuel + 1)) env (⟨s, .ident "switch"⟩ :: toks) t env' rest ↔
    Yields (parseSwitch g n (stmt g n fuel)) env toks t env' rest := by
  rw [stmt, Yields.bind_iff peek_yields, Yields.bind_iff tokenStartsType_yields]
  exact Yields.bind_iff advanceToken_yields

-- A run of the parser of the statement is a run for the body, between the runs for what is around it.
theorem Controls.yields {build : List Stmt → Stmt} (h : Controls g n fuel env before env₁ after rest build)
    (hb : Yields (stmtAsBlock n (stmt g n fuel)) env₁ (toks ++ (after ++ rest)) body env₁ (after ++ rest)) :
    Yields (stmt g n (fuel + 1)) env (before ++ (toks ++ (after ++ rest))) (build body) env rest := by
  cases h
  case ifThen s c cond hc he =>
    refine stmt_if.mpr <| yields_scope_iff.mpr ⟨rfl, env₁, hc.bind_iff.mpr <| .bind hb ?_⟩
    exact .bind (eat_yields_false he) <| .bind .pure .pure
  case ifElse s t c arm cond no hc hn =>
    refine stmt_if.mpr <| yields_scope_iff.mpr ⟨rfl, env₁, hc.bind_iff.mpr <| .bind hb ?_⟩
    exact .bind eat_yields <| .bind hn .pure
  case elseArm s t c arm cond yes hc hy =>
    simp only [List.cons_append, List.append_assoc, List.nil_append] at hb ⊢
    refine stmt_if.mpr <| yields_scope_iff.mpr ⟨rfl, env₁, hc.bind_iff.mpr <| .bind (hy _) ?_⟩
    exact .bind eat_yields <| .bind hb .pure
  case «while» s c cond hc =>
    exact stmt_while.mpr <| yields_scope_iff.mpr ⟨rfl, env₁, hc.bind_iff.mpr <| .bind hb .pure⟩
  case doWhile s t u c cond env₁ hc =>
    refine stmt_do.mpr <| yields_scope_iff.mpr ⟨rfl, env₁, .bind hb ?_⟩
    simp only [List.cons_append, List.append_assoc, List.nil_append]
    refine .bind (.bind peek_yields advanceToken_yields) <| hc.bind_iff.mpr ?_
    exact .bind needPunct_yields .pure
  case «for» s t c₁ c₂ c₃ initClause cond stepExpr env₁ env₂ h₁ h₂ h₃ =>
    simp only [List.cons_append, List.append_assoc]
    exact stmt_for.mpr <| yields_scope_iff.mpr ⟨rfl, _, .bind needPunct_yields <| .bind (h₁ _) <|
      .bind (h₂ _) <| .bind (h₃ _) <| .bind hb .pure⟩
  case switch s c value hc =>
    exact stmt_switch.mpr <| yields_scope_iff.mpr ⟨rfl, env₁, hc.bind_iff.mpr <| .bind hb .pure⟩

-- The body in the tree is what the parser of the body yields, whatever comes after it.
theorem Controls.body_eq {build : List Stmt → Stmt} {body' : List Stmt}
    (h : Controls g n fuel env before env₁ after rest build)
    (hb : Yields (stmtAsBlock n (stmt g n fuel)) env₁ toks body env₂ toks₁)
    (hy : Yields (stmt g n (fuel + 1)) env (before ++ toks) (build body') env' toks₂) : body' = body := by
  cases h
  case ifThen s c cond hc he =>
    have ⟨_, _, hy⟩ := yields_scope_iff.mp <| stmt_if.mp hy
    have ⟨b, _, _, _, hy⟩ := Yields.exists_of_bind <| (Yields.bind_iff hb).mp <| hc.bind_iff.mp hy
    have ⟨_, _, _, _, hy⟩ := Yields.exists_of_bind hy
    cases hy
    rfl
  case ifElse s t c arm cond no hc hn =>
    have ⟨_, _, hy⟩ := yields_scope_iff.mp <| stmt_if.mp hy
    have ⟨b, _, _, _, hy⟩ := Yields.exists_of_bind <| (Yields.bind_iff hb).mp <| hc.bind_iff.mp hy
    have ⟨_, _, _, _, hy⟩ := Yields.exists_of_bind hy
    cases hy
    rfl
  case elseArm s t c arm cond yes hc ha =>
    simp only [List.cons_append, List.append_assoc, List.nil_append] at hy
    have ⟨_, _, hy⟩ := yields_scope_iff.mp <| stmt_if.mp hy
    have hy := (Yields.bind_iff eat_yields).mp <| (Yields.bind_iff <| ha _).mp <| hc.bind_iff.mp hy
    cases (Yields.bind_iff hb).mp hy
    rfl
  case «while» s c cond hc =>
    have ⟨_, _, hy⟩ := yields_scope_iff.mp <| stmt_while.mp hy
    cases (Yields.bind_iff hb).mp <| hc.bind_iff.mp hy
    rfl
  case doWhile s t u c cond env₁ hc =>
    have ⟨_, _, hy⟩ := yields_scope_iff.mp <| stmt_do.mp hy
    have ⟨_, _, _, _, hy⟩ := Yields.exists_of_bind <| (Yields.bind_iff hb).mp hy
    have ⟨_, _, _, _, hy⟩ := Yields.exists_of_bind hy
    have ⟨_, _, _, _, hy⟩ := Yields.exists_of_bind hy
    have ⟨_, _, _, _, hy⟩ := Yields.exists_of_bind hy
    have ⟨_, _, _, _, hy⟩ := Yields.exists_of_bind hy
    cases hy
    rfl
  case «for» s t c₁ c₂ c₃ initClause cond stepExpr env₁ env₂ h₁ h₂ h₃ =>
    simp only [List.cons_append, List.append_assoc] at hy
    have ⟨_, _, hy⟩ := yields_scope_iff.mp <| stmt_for.mp hy
    have hy := (Yields.bind_iff <| h₁ _).mp <| (Yields.bind_iff needPunct_yields).mp hy
    cases (Yields.bind_iff hb).mp <| (Yields.bind_iff <| h₃ _).mp <| (Yields.bind_iff <| h₂ _).mp hy
    rfl
  case switch s c value hc =>
    have ⟨_, _, hy⟩ := yields_scope_iff.mp <| stmt_switch.mp hy
    cases (Yields.bind_iff hb).mp <| hc.bind_iff.mp hy
    rfl

end Controls

section Labelled

variable {m : Nat} {x y x' : ParserEnv} {item st : Stmt} {items : List Stmt} {labels body : List Token}

theorem ReadsLabel.related (hr : SameView x y) (h : ReadsLabel (grammar m) x toks item x' rest) :
    ∃ y', ReadsLabel (grammar m) y toks item y' rest ∧ SameView x' y' := by
  cases h
  case goto name s t hn => exact ⟨y, .goto name s t rest hn, hr⟩
  case default s t      => exact ⟨y, .default s t rest, hr⟩
  case case s t toks value h =>
    have ⟨y', h, hr⟩ := Relates.yields (R := SameView) hr h
    exact ⟨y', .case s t toks rest value y' h, hr⟩

theorem ReadsLabels.related (hr : SameView x y) (h : ReadsLabels (grammar m) x toks items x' rest) :
    ∃ y', ReadsLabels (grammar m) y toks items y' rest ∧ SameView x' y' := by
  induction h generalizing y
  case nil env rest => exact ⟨y, .nil y rest, hr⟩
  case cons hl _ hi =>
    have ⟨_, hl, hr⟩ := hl.related hr
    have ⟨_, h, hr⟩ := hi hr
    exact ⟨_, .cons _ _ _ _ _ _ _ _ hl h, hr⟩

-- A label is spelled by a word, so it is no brace.
theorem ReadsLabel.exists_cons (h : ReadsLabel g env toks item env₁ toks₁) :
    ∃ tok rest, toks = tok :: rest ∧ tok.kind ≠ .punct "\x7b" := by
  cases h <;> exact ⟨_, _, rfl, nofun⟩

theorem eat_brace_yields {m : Nat} {t : Stmt} (h : Yields (stmt (grammar m) n fuel) env toks t env' rest) :
    Yields (eatPunct "\x7d") env toks false env toks := by
  apply eat_yields_false
  rintro ⟨s, kind⟩ ht rfl
  cases toks
  case nil  => cases ht
  case cons => cases ht; exact stmt_rejects h

-- In braces, the labels and the statement are the elements of a block.
theorem ReadsLabels.braces {o : Span} (hl : ReadsLabels (grammar m) (enterParserScope env) toks items env₁ toks₁)
    (hs : Yields (stmt (grammar m) n (fuel + 1)) env₁ toks₁ st env₂ (⟨s, .punct "\x7d"⟩ :: rest))
    (hn : items.length + 1 < n) :
    Yields (stmtAsBlock n (stmt (grammar m) n (fuel + 1))) env (⟨o, .punct "\x7b"⟩ :: toks)
      [.sBlock (items ++ [st])] env rest := by
  have ⟨y, hl, hr⟩ := hl.related (.enter env)
  have ⟨z, hs, _⟩ := Relates.yields (R := SameView) hr hs
  obtain ⟨k, rfl⟩ : ∃ k, n = k + 1 + 1 + items.length := ⟨n - items.length - 2, by omega⟩
  exact stmtAsBlock_braces <| hl.manyUntil <|
    .manyUntil_cons (eat_brace_yields hs) hs <| .manyUntil_nil eat_yields

-- Without braces, only a label that is an element of its own takes one element along.
theorem ReadsLabel.single (hl : ReadsLabel g (enterParserScope env) toks item env₁ toks₁)
    (hi : ∀ name, item ≠ .sLabel name) :
    Yields (stmtAsBlock n (stmt g n (fuel + 1))) env toks [item] env toks₁ := by
  obtain ⟨tok, toks, rfl, ht⟩ := hl.exists_cons
  exact stmtAsBlock_single ht hl.yields hi

theorem ReadsLabel.pair {name : String}
    (hl : ReadsLabel g (enterParserScope env) toks (.sLabel name) env₁ toks₁)
    (hs : Yields (stmt g n (fuel + 1)) env₁ toks₁ st env₂ rest) :
    Yields (stmtAsBlock n (stmt g n (fuel + 1))) env toks [.sLabel name, st] env rest := by
  obtain ⟨tok, toks, rfl, ht⟩ := hl.exists_cons
  exact stmtAsBlock_label ht hl.yields hs

theorem labelled_body_iff {build : List Stmt → Stmt} (o c : Span)
    (hc : Controls (grammar m) n fuel env before env₁ after rest build)
    (hl : ∀ more, ReadsLabels (grammar m) (enterParserScope env₁) (labels ++ more) items env₂ more)
    (hs : ∀ more ∈ [after ++ rest, ⟨c, .punct "\x7d"⟩ :: (after ++ rest)],
      ∃ env₃, Yields (stmt (grammar m) n fuel) env₂ (body ++ more) st env₃ more)
    (hi : items ≠ []) (hn : items.length + 1 < n) :
    (∃ tree,
      Yields (stmt (grammar m) n (fuel + 1)) env (before ++ (labels ++ body ++ (after ++ rest)))
        (build tree) env rest ∧
      Yields (stmt (grammar m) n (fuel + 1)) env (before ++ (⟨o, .punct "\x7b"⟩ :: labels ++ body ++
        [⟨c, .punct "\x7d"⟩] ++ (after ++ rest))) (build [.sBlock tree]) env rest) ↔
    ∃ name, items = [.sLabel name] := by
  have ⟨_, hs₁⟩ := hs _ (.head _)
  have ⟨_, hs₂⟩ := hs _ (.tail _ <| .head _)
  obtain ⟨fuel, rfl⟩ : ∃ k, fuel = k + 1 := by
    cases fuel
    case zero      => cases hs₁
    case succ fuel => exact ⟨fuel, rfl⟩
  have hb := (hl _).braces (o := o) hs₂ hn
  specialize hl (body ++ (after ++ rest))
  simp only [List.append_assoc, List.cons_append, List.nil_append]
  constructor
  case mpr =>
    rintro ⟨name, rfl⟩
    cases hl
    case cons hl h =>
      cases h
      have hu := hl.pair (n := n) hs₁
      rw [← List.append_assoc] at hu
      have hb : Yields (stmtAsBlock n (stmt (grammar m) n (fuel + 1))) env₁
          ((⟨o, .punct "\x7b"⟩ :: (labels ++ (body ++ [⟨c, .punct "\x7d"⟩]))) ++ (after ++ rest))
          [.sBlock ([.sLabel name] ++ [st])] env₁ (after ++ rest) := by simpa using hb
      have hb := hc.yields hb
      exact ⟨_, by simpa using hc.yields hu, by simpa using hb⟩
  case mp =>
    intro ⟨tree, hu, hb'⟩
    obtain rfl : tree = items ++ [st] := by simpa using hc.body_eq hb hb'
    -- The tree without braces has one element, or two if the first label takes one along.
    rcases items with _ | ⟨item, items⟩
    · exact absurd rfl hi
    cases hl
    rename_i hl h
    by_cases hn : ∃ name, item = .sLabel name
    case neg =>
      have := hc.body_eq (hl.single (not_exists.mp hn)) hu
      simp at this
    case pos =>
      obtain ⟨name, rfl⟩ := hn
      rcases items with _ | ⟨item, items⟩
      · exact ⟨name, rfl⟩
      cases h
      rename_i hl' _
      have := hc.body_eq (hl.pair hl'.yields) hu
      simp at this

-- `(x)` after a keyword, and `y;`.
def conditionToks : List Token :=
  [.punct "(", .ident "x", .punct ")"].map bareToken

def plainToks : List Token :=
  [.ident "y", .punct ";"].map bareToken

-- `while (x) here: y;`
set_option maxRecDepth 2000 in
theorem labelled_body_goto : ∃ tree,
    Yields (stmt (grammar 2) 4 2) (initialParserEnv 64) (bareToken (.ident "while") :: conditionToks ++
      ([.ident "here", .punct ":"].map bareToken ++ plainToks ++ [])) (.sWhile (.var "x") tree)
      (initialParserEnv 64) [] ∧
    Yields (stmt (grammar 2) 4 2) (initialParserEnv 64) (bareToken (.ident "while") :: conditionToks ++
      ([.punct "\x7b", .ident "here", .punct ":"].map bareToken ++ plainToks ++
        [bareToken (.punct "\x7d")] ++ [])) (.sWhile (.var "x") [.sBlock tree]) (initialParserEnv 64) [] := by
  have he (more) : Yields (expr (grammar 2)) (enterParserScope (initialParserEnv 64))
      (bareToken (.ident "x") :: bareToken (.punct ")") :: more) (.var "x")
      (enterParserScope (initialParserEnv 64))
      (bareToken (.punct ")") :: more) := rfl
  have hc : Controls (grammar 2) 4 1 (initialParserEnv 64) (bareToken (.ident "while") :: conditionToks)
      _ [] [] fun body => .sWhile (.var "x") body :=
    .while _ _ _ _ _ <| .intro _ _ [bareToken (.ident "x")] _ _ he
  have hl (more) : ReadsLabels (grammar 2) (enterParserScope (enterParserScope (initialParserEnv 64)))
      ([.ident "here", .punct ":"].map bareToken ++ more) [.sLabel "here"] _ more :=
    .cons _ _ _ _ _ _ _ _ (.goto "here" _ _ _ (by decide)) (.nil _ _)
  have hs (more) : Yields (stmt (grammar 2) 4 1) (enterParserScope (enterParserScope (initialParserEnv 64)))
      (plainToks ++ more) (.sExpr (.var "y")) _ more := rfl
  exact (labelled_body_iff _ _ hc hl (fun more _ => ⟨_, hs more⟩) nofun (show 2 < 4 by decide)).mpr ⟨"here", rfl⟩

-- `switch (x) case 1: y;`
theorem not_labelled_body : ¬∃ tree,
    Yields (stmt (grammar 2) 4 2) (initialParserEnv 64) (bareToken (.ident "switch") :: conditionToks ++
      [.ident "case", .int "1", .punct ":"].map bareToken ++ plainToks) (.sSwitch (.var "x") tree)
      (initialParserEnv 64) [] ∧
    Yields (stmt (grammar 2) 4 2) (initialParserEnv 64) (bareToken (.ident "switch") :: conditionToks ++
      [.punct "\x7b", .ident "case", .int "1", .punct ":"].map bareToken ++ plainToks ++
      [bareToken (.punct "\x7d")]) (.sSwitch (.var "x") [.sBlock tree]) (initialParserEnv 64) [] := by
  intro ⟨tree, h, _⟩
  have hu : Yields (stmt (grammar 2) 4 2) (initialParserEnv 64) (bareToken (.ident "switch") :: conditionToks ++
      [.ident "case", .int "1", .punct ":"].map bareToken ++ plainToks)
      (.sSwitch (.var "x") [.sCase (.int ['1'])]) (initialParserEnv 64) plainToks := rfl
  exact nomatch (h.unique hu).right.right

end Labelled
end Hcc.Parser
