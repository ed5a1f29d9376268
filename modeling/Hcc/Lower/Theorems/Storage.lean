import Hcc.Lower.Storage
import Hcc.Lower.Theorems.Scope
import Hcc.Parser.Theorems.Reads
import Hcc.Lower.Theorems.Temps.Statement

open Stateful

namespace Hcc.StorageClass

variable {storage : StorageClass} {g : Grammar} {n fuel : Nat} {ex : ExprLowering} {env env' : ParserEnv}
variable {toks rest : List Token} {names : List String} {action : ExprM (List Instr)} {is : List Instr}
variable {st st' : ExprState}

section Parsing

theorem liveBinds_declStmt {first : Decl} {decls : List Decl} :
    liveBinds (Parser.declStmt (first :: decls)) = (first :: decls).map (·.name) := by
  cases decls <;> rfl

-- Only a type on its own and a prototype have no declarators.
theorem parseDeclStmt_binds {stmt : Stmt} (h : Yields (Parser.parseDeclStmt g n) env toks stmt env' rest) :
    liveBinds stmt = [] ↔ DeclaresNothing g n env toks .statement := by
  have ⟨type, env₁, toks₁, ht, h⟩ := Yields.exists_of_bind h
  have hd : DeclaresNothing g n env toks .statement ↔ (∃ tok ∈ toks₁.head?, tok.kind = .punct ";") ∨
      ∃ env₂ rest, Yields (Parser.localPrototype g n type) env₁ toks₁ () env₂ rest := by
    refine ⟨fun ⟨_, _, _, ht', h⟩ => ?_, fun h => ⟨_, _, _, ht, h⟩⟩
    obtain ⟨rfl, rfl, rfl⟩ := ht.unique ht'
    exact h
  rw [hd]
  by_cases hs : ∃ tok ∈ toks₁.head?, tok.kind = .punct ";"
  case pos =>
    refine iff_of_true ?_ <| .inl hs
    obtain ⟨⟨span, _⟩, hm, rfl⟩ := hs
    obtain ⟨toks₂, rfl⟩ := List.head?_eq_some_iff.mp hm
    obtain ⟨rfl, _, _⟩ := Yields.unique h <| .bind Parser.eat_yields .pure
    rfl
  case neg =>
    have he : Yields (Parser.eatPunct ";") env₁ toks₁ false env₁ toks₁ :=
      Parser.eat_yields_false fun tok hm ht => hs ⟨tok, hm, ht⟩
    have ⟨prototype, env₂, toks₂, hp, h⟩ := Yields.exists_of_bind <| (Yields.bind_iff he).mp h
    cases prototype
    case some =>
      obtain ⟨rfl, _, _⟩ := Yields.unique h .pure
      exact iff_of_true rfl <| .inr ⟨_, _, yields_try_iff.mp <| yields_optional_iff.mp hp⟩
    case none =>
      have ⟨first, _, _, _, h⟩ := Yields.exists_of_bind h
      have ⟨decls, _, _, _, h⟩ := Yields.exists_of_bind h
      obtain ⟨rfl, _, _⟩ := Yields.unique h .pure
      refine iff_of_false (by simp [liveBinds_declStmt]) <| not_or.mpr ⟨hs, fun ⟨_, _, hl⟩ => ?_⟩
      exact nomatch (hp.unique <| .optional <| yields_try_iff.mpr hl).left

theorem forInit_binds {decls : List Decl} (h : Yields (Parser.forInit g n) env toks (.decls decls) env' rest) :
    decls ≠ [] := by
  have ⟨semi, _, _, _, h⟩ := Yields.exists_of_bind h
  split at h
  case isTrue => exact nomatch (h.unique .pure).left
  case isFalse =>
    have ⟨tok, _, _, _, h⟩ := Yields.exists_of_bind h
    have ⟨isType, _, _, _, h⟩ := Yields.exists_of_bind h
    split at h
    case isTrue =>
      have ⟨type, _, _, _, h⟩ := Yields.exists_of_bind h
      have ⟨first, _, _, _, h⟩ := Yields.exists_of_bind h
      have ⟨more, _, _, _, h⟩ := Yields.exists_of_bind h
      obtain ⟨he, _, _⟩ := Yields.unique h .pure
      exact ForInit.decls.inj he ▸ nofun
    case isFalse =>
      have ⟨_, _, _, _, h⟩ := Yields.exists_of_bind h
      have ⟨_, _, _, _, h⟩ := Yields.exists_of_bind h
      exact nomatch (h.unique .pure).left

theorem Declares.names_eq_nil {position : Position}
    (h : storage.Declares g n ex env toks position names action) :
    names = [] ↔ DeclaresNothing g n env toks position := by
  cases h
  case statement hp _ => exact parseDeclStmt_binds hp
  case head hp        => simpa [DeclaresNothing] using forInit_binds hp

end Parsing

section Declarations

variable {position : Position}

theorem Declares.declares (h : storage.Declares g n ex env toks position names action) (hx : ex.Scoped) :
    Hcc.Declares names action := by
  cases h
  case statement hs => exact straightInstrs_declares hx hs
  case head         => exact lowerForInit_declares hx _

theorem Declares.produces (h : storage.Declares g n ex env toks position names action) {t : Temp}
    (hx : ex.AllProduce t) (ho : st.structs.Ordered) (hr : Run action st is st') :
    Produces t st is [] st' := by
  cases h
  case statement hs => exact straightInstrs_produces hx hs ho hr
  case head         => exact lowerForInit_produces hx ho hr

-- What is declared is a new temporary, which the instructions of the declaration define each time
-- they are executed.
theorem Declares.automatic (h : storage.Declares g n (exprLowering fuel) env toks position names action)
    (hr : Run action st is st') (hf : st.Fresh) (ho : st.structs.Ordered) {name : String} (hn : name ∈ names) :
    ∃ temp type, scopeMapLookup name st'.vars = some (temp, type) ∧ st.New st' temp ∧
      (0 < creations temp is ∨ ¬Unassigned temp is) := by
  have hb := h.declares (exprLowering_scoped fuel) hr
  have ⟨⟨temp, type⟩, hl, hle⟩ := hb.lookup hf hn
  have hw : st.New st' temp := ⟨hle, (hf.binds hb).lookup_lt hl⟩
  exact ⟨temp, type, hl, hw, h.produces (exprLowering_produces fuel) ho hr |>.defines hw⟩

end Declarations

theorem run_lowerVarLValue {sc : Scope} {temp : Temp} {type : CType} {name : String} {lvalue : LValue}
    {vs vs' : ValueState} (hl : scopeMapLookup name sc = some (temp, type))
    (hr : Run (Lowering.lowerVarLValue name sc) vs (is, lvalue) vs') : lvalue = .lLocal temp type := by
  unfold Lowering.lowerVarLValue at hr
  obtain ⟨_, _, hv, hr⟩ := run_value_bind_iff.mp hr
  obtain ⟨rfl, rfl⟩ := run_lookupVarMaybe_iff.mp hv
  rw [hl] at hr
  obtain ⟨_, _, ht, hr⟩ := run_value_bind_iff.mp hr
  obtain ⟨rfl, rfl⟩ := run_lookupVarType_iff.mp ht
  simp only [hl, Option.map_some, requireMaybeType, pure_bind] at hr
  exact (Prod.mk.inj (run_value_pure_iff.mp hr).left).right.symm

-- A variable in scope hides all objects with a storage class.
theorem not_kept {name : String} {temp : Temp} {type : CType}
    (hl : scopeMapLookup name st.vars = some (temp, type)) : ¬storage.Kept st name := by
  intro ⟨lvalue, _, hr, hd⟩
  have ⟨_, hr, _⟩ := run_onValues_iff.mp hr
  obtain rfl := run_lowerVarLValue hl hr
  cases storage <;> exact hd

section Claim

-- The storage class of all variables is kept, if and only if there are none.
theorem keeps_storage_iff {position : Position}
    (h : storage.Declares g n (exprLowering fuel) env toks position names action)
    (hr : Run action st is st') (hf : st.Fresh) :
    (∀ name ∈ names, storage.Kept st' name) ↔ DeclaresNothing g n env toks position := by
  rw [←h.names_eq_nil]
  constructor
  case mp =>
    intro hk
    refine List.eq_nil_iff_forall_not_mem.mpr fun name hn => ?_
    have ⟨_, hl, _⟩ := (h.declares (exprLowering_scoped fuel) hr).lookup hf hn
    exact not_kept hl <| hk name hn
  case mpr =>
    rintro rfl _ hn
    cases hn

-- `static int x;`
def storedVariable : List Token :=
  [.ident "static", .ident "int", .ident "x", .punct ";"].map bareToken

theorem not_keeps_storage : ∃ action st',
    StorageClass.staticObject.Declares (grammar 4) 4 (exprLowering 2) (Parser.initialParserEnv 64) storedVariable
      .statement ["x"] action ∧
    Run action {} [.const ⟨0⟩ 0] st' ∧ ¬∀ name ∈ ["x"], StorageClass.staticObject.Kept st' name := by
  have hp : Yields (Parser.parseDeclStmt (grammar 4) 4) (Parser.initialParserEnv 64) storedVariable
      (.sDecl ⟨.int, "x", none⟩) _ [] := rfl
  have ht : Yields (grammar 4).ctype (Parser.initialParserEnv 64) storedVariable .int
      (Parser.initialParserEnv 64) ([.ident "x", .punct ";"].map bareToken) := rfl
  refine ⟨_, _, .statement _ _ _ _ ?_ hp rfl, rfl, fun hk => ?_⟩
  · exact ⟨[.ident "static", .ident "int"].map bareToken, _, _, _, _, rfl, ht, .head _⟩
  · exact not_kept rfl <| hk "x" <| .head _

-- `extern int f(void);`
def storedPrototype : List Token :=
  [.ident "extern", .ident "int", .ident "f", .punct "(", .ident "void", .punct ")", .punct ";"].map bareToken

theorem keeps_storage_prototype : ∃ st', Run ((exprLowering 2).lowerSideEffect (.int ['0'])) {} [] st' ∧
    ∀ name ∈ liveBinds (.sExpr (.int ['0'])), StorageClass.externObject.Kept st' name := by
  have hp : Yields (Parser.parseDeclStmt (grammar 4) 4) (Parser.initialParserEnv 64) storedPrototype
      (.sExpr (.int ['0'])) _ [] := rfl
  have ht : Yields (grammar 4).ctype (Parser.initialParserEnv 64) storedPrototype .int
      (Parser.initialParserEnv 64)
      ([.ident "f", .punct "(", .ident "void", .punct ")", .punct ";"].map bareToken) := rfl
  have hs : StorageClass.externObject.Specifies (grammar 4) (Parser.initialParserEnv 64) storedPrototype :=
    ⟨[.ident "extern", .ident "int"].map bareToken, _, _, _, _, rfl, ht, .head _⟩
  have hf : ({} : ExprState).Fresh :=
    ⟨by simp [scopeMapEmpty, SymbolMap.ordered_empty], by simp [scopeMapEmpty, SymbolMap.all_empty]⟩
  have hr : Run ((exprLowering 2).lowerSideEffect (.int ['0'])) {} [] {} := rfl
  have hl : Yields (Parser.localPrototype (grammar 4) 4 .int) (Parser.initialParserEnv 64)
      ([.ident "f", .punct "(", .ident "void", .punct ")", .punct ";"].map bareToken) () _ [] := rfl
  exact ⟨{}, hr, (keeps_storage_iff (.statement _ _ _ _ hs hp rfl) hr hf).mpr ⟨_, _, _, ht, .inr ⟨_, _, hl⟩⟩⟩

end Claim

end Hcc.StorageClass
