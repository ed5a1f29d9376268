import Hcc.Ast.Calls
import Hcc.Compile.Run
import Hcc.Lower.Program
import Hcc.SymbolTable.Theorems.Lookup

-- The functions that are declared by being called.
namespace Hcc

open Stateful SymbolMap

section Registration

variable {st st' st'' : ValueState} {names names' : List String} {α β : Type} {m : ValueM α}
         {f : α → ValueM β} {a : α} {b : β}

def IgnoredBuiltin (name : String) : Prop :=
  name = "asm" ∨ isIgnoredSideEffectCall name

-- The names that are added to the function table when they are called.
def Undeclared (st : ValueState) (name : String) : Prop :=
  symbolMapMember name st.globals = false ∧ ¬IgnoredBuiltin name

-- The function table gets the given names.
structure GetsNames (names : List String) (st st' : ValueState) : Prop where
  ordered   : st'.functions.Ordered
  globals   : st'.globals = st.globals
  functions : ∀ name, symbolMapMember name st'.functions ↔
    symbolMapMember name st.functions ∨ (name ∈ names ∧ Undeclared st name)

theorem GetsNames.nil (h : st.functions.Ordered) : GetsNames [] st st where
  ordered   := h
  globals   := rfl
  functions := fun _ => by simp

theorem GetsNames.trans (h₁ : GetsNames names st st') (h₂ : GetsNames names' st' st'') :
    GetsNames (names ++ names') st st'' where
  ordered   := h₂.ordered
  globals   := h₂.globals.trans h₁.globals
  functions := fun name => by
    have hf : Undeclared st' name ↔ Undeclared st name := by rw [Undeclared, Undeclared, h₁.globals]
    rw [h₂.functions, h₁.functions, hf, List.mem_append]
    tauto

theorem GetsNames.congr (h : GetsNames names st st')
    (hn : ∀ name, Undeclared st name → (name ∈ names ↔ name ∈ names')) :
    GetsNames names' st st' where
  ordered   := h.ordered
  globals   := h.globals
  functions := fun name => by
    rw [h.functions]
    exact or_congr_right <| and_congr_left <| hn name

-- A successful computation returns a value that is known beforehand.
def Adds (m : ValueM α) (a : α) (names : List String) : Prop :=
  ∀ sc st b st', Run (m sc) st b st' → st.functions.Ordered → b = a ∧ GetsNames names st st'

theorem Adds.pure : Adds (pure a : ValueM α) a [] := by
  intro sc st b st' h ho
  have ⟨hb, hs⟩ := run_pure_iff.mp h
  exact ⟨hb.symm, hs ▸ .nil ho⟩

theorem Adds.bind (hm : Adds m a names) (hf : Adds (f a) b names') : Adds (m >>= f) b (names ++ names') := by
  intro sc st c st' h ho
  have ⟨a', s, h₁, h₂⟩ := run_value_bind_iff.mp h
  have ⟨ha, hr⟩ := hm _ _ _ _ h₁ ho
  have ⟨hb, hr'⟩ := hf _ _ _ _ (ha ▸ h₂) hr.ordered
  exact ⟨hb, hr.trans hr'⟩

theorem Adds.congr (h : Adds m a names)
    (hn : ∀ name, ¬IgnoredBuiltin name → (name ∈ names ↔ name ∈ names')) :
    Adds m a names' := by
  intro sc st b st' hr ho
  have ⟨hb, hs⟩ := h _ _ _ _ hr ho
  exact ⟨hb, hs.congr fun name hf => hn name hf.right⟩

end Registration

section Names

variable {own scope : List String} {calls calls' : List Call}

-- The names that are registered for calls: the traversal does not see the hidden ones.
def unboundNames (scope : List String) (calls : List Call) : List String :=
  (calls.filter fun call => ¬call.hidden ∧ call.name ∉ scope).map (·.name)

theorem unboundNames_append :
    unboundNames scope (calls ++ calls') = unboundNames scope calls ++ unboundNames scope calls' := by
  simp [unboundNames]

theorem unboundNames_hide : unboundNames scope (hide calls) = [] := by
  simp [unboundNames, hide]

-- None of the calls in a type are seen.
mutual

theorem unboundNames_callsType : (type : CType) → unboundNames scope (callsType type) = []
  | .structNamed _ fields   => unboundNames_callsFields fields
  | .unionNamed _ fields    => unboundNames_callsFields fields
  | .structDef fields       => unboundNames_callsFields fields
  | .unionDef fields        => unboundNames_callsFields fields
  | .array inner none       => unboundNames_callsType inner
  | .array inner (some len) => by
    rw [callsType, unboundNames_append, unboundNames_callsType inner, unboundNames_hide]
    rfl
  | .func ret params        => by
    rw [callsType, unboundNames_append, unboundNames_callsType ret, unboundNames_callsTypes params]
    rfl
  | .ptr inner              => unboundNames_callsType inner
  | .void | .int | .short | .char | .unsigned | .unsignedShort | .unsignedChar | .long | .unsignedLong
  | .longLong | .unsignedLongLong | .bool | .float | .double | .longDouble | .struct _ | .union _ | .enum _
  | .named _ => rfl

theorem unboundNames_callsTypes : (types : List CType) → unboundNames scope (callsTypes types) = []
  | []            => rfl
  | type :: types => by
    rw [callsTypes, unboundNames_append, unboundNames_callsType type, unboundNames_callsTypes types]
    rfl

theorem unboundNames_callsFields : (fields : List Field) → unboundNames scope (callsFields fields) = []
  | []                   => rfl
  | .mk type _ :: fields => by
    rw [callsFields, unboundNames_append, unboundNames_callsType type, unboundNames_callsFields fields]
    rfl

end

end Names

section Traversal

variable {sc : Scope} {st st' : ValueState} {name : String} {b : Unit}

theorem run_lookupGlobalType {ty : Option CType} (h : Run (lookupGlobalType name sc) st ty st') :
    ty = symbolMapLookup name st.globals ∧ st' = st := by
  have ⟨st₁, st₂, hg, h⟩ := run_value_bind_iff.mp h
  have ⟨h₁, h₂⟩ := run_get_iff.mp hg
  have ⟨hb, hs⟩ := run_pure_iff.mp h
  exact ⟨h₁ ▸ hb.symm, h₂ ▸ hs.symm⟩

theorem run_bindFunction (h : Run (bindFunction name sc) st b st') :
    st' = { st with functions := symbolMapInsert name () st.functions } := by
  have ⟨_, st₁, hr, h⟩ := run_value_bind_iff.mp h
  have h₂ := run_modify_iff.mp h
  have h₁ : st₁ = st := by
    rw [rejectReservedSymbol] at hr
    split at hr
    case isTrue => exact absurd hr not_run_throw
    case isFalse => exact (run_pure_iff.mp hr).right.symm
  exact h₁ ▸ h₂.symm

theorem registers_bindFunction (ho : st.functions.Ordered) (hf : Undeclared st name) :
    GetsNames [name] st { st with functions := symbolMapInsert name () st.functions } where
  ordered   := ho.insert
  globals   := rfl
  functions := fun other => by
    simp only [symbolMapMember, ho.lookup_insert, List.mem_singleton]
    by_cases he : other = name
    case pos => simp [he, hf]
    case neg => simp [he]

theorem registerImplicitCallName_spec (scope : List String) (hn : name ≠ "asm") :
    Adds (registerImplicitCallName scope name) () (unboundNames scope [⟨name, false⟩]) := by
  intro sc st b st' h ho
  refine ⟨rfl, ?_⟩
  have hu {other : String} : other ∈ unboundNames scope [⟨name, false⟩] ↔ name ∉ scope ∧ other = name := by
    by_cases hs : name ∈ scope <;> simp [unboundNames, hs]
  rw [registerImplicitCallName] at h
  split at h
  case isTrue hi =>
    have ⟨_, hs⟩ := run_pure_iff.mp h
    refine hs ▸ (GetsNames.nil ho).congr fun other hf => ?_
    rw [hu]
    refine ⟨nofun, fun ⟨hs, he⟩ => absurd ?_ hf.right⟩
    exact .inr <| he ▸ by simpa [hs] using hi
  case isFalse hi =>
    have ⟨hs, hb⟩ : name ∉ scope ∧ isIgnoredSideEffectCall name = false := by simpa using hi
    have ⟨ty, st₁, hg, h⟩ := run_value_bind_iff.mp h
    obtain ⟨rfl, rfl⟩ := run_lookupGlobalType hg
    cases hl : symbolMapLookup name st₁.globals
    case some =>
      rw [hl] at h
      have ⟨_, hs⟩ := run_pure_iff.mp h
      refine hs ▸ (GetsNames.nil ho).congr fun other hf => ?_
      rw [hu]
      refine ⟨nofun, fun ⟨_, he⟩ => absurd hf.left ?_⟩
      simp [he, symbolMapMember, hl]
    case none =>
      rw [hl] at h
      rw [run_bindFunction h]
      have hf : Undeclared st₁ name := ⟨by simp [symbolMapMember, hl], by simp [IgnoredBuiltin, hn, hb]⟩
      exact (registers_bindFunction ho hf).congr fun other _ => by simp [hu, hs]

mutual

theorem registerImplicitCallsExpr_spec (scope : List String) : (expr : Expr) →
    Adds (registerImplicitCallsExpr scope expr) () (unboundNames scope (callsExpr expr))
  | .call callee args         => by
    have hc := registerImplicitCallsExpr_spec scope callee
    have ha := registerImplicitCallsExprs_spec scope args
    cases callee
    case var name =>
      unfold registerImplicitCallsExpr callsExpr
      split
      case isTrue hn =>
        rw [←List.singleton_append, unboundNames_append, unboundNames_hide]
        refine Adds.pure.congr fun other hi => ⟨nofun, fun h => absurd ?_ hi⟩
        have h : "asm" ∉ scope ∧ "asm" = other := by simpa [unboundNames, hn] using h
        exact .inl h.right.symm
      case isFalse hn =>
        rw [←List.singleton_append, unboundNames_append]
        exact .bind (registerImplicitCallName_spec scope hn) ha
    all_goals
      unfold registerImplicitCallsExpr callsExpr
      rw [unboundNames_append]
      exact .bind hc ha
  | .index base ix            => by
    rw [callsExpr, unboundNames_append]
    exact .bind (registerImplicitCallsExpr_spec scope base) (registerImplicitCallsExpr_spec scope ix)
  | .member base _            => registerImplicitCallsExpr_spec scope base
  | .ptrMember base _         => registerImplicitCallsExpr_spec scope base
  | .unary _ value            => registerImplicitCallsExpr_spec scope value
  | .sizeofExpr value         => registerImplicitCallsExpr_spec scope value
  | .postIncDec _ value       => registerImplicitCallsExpr_spec scope value
  | .cast type value          => by
    rw [callsExpr, unboundNames_append, unboundNames_callsType]
    exact registerImplicitCallsExpr_spec scope value
  | .binary _ left right      => by
    rw [callsExpr, unboundNames_append]
    exact .bind (registerImplicitCallsExpr_spec scope left) (registerImplicitCallsExpr_spec scope right)
  | .cond cond yes no         => by
    rw [callsExpr, unboundNames_append, unboundNames_append, List.append_assoc]
    exact .bind (registerImplicitCallsExpr_spec scope cond) <|
      .bind (registerImplicitCallsExpr_spec scope yes) (registerImplicitCallsExpr_spec scope no)
  | .assign lhs rhs           => by
    rw [callsExpr, unboundNames_append]
    exact .bind (registerImplicitCallsExpr_spec scope lhs) (registerImplicitCallsExpr_spec scope rhs)
  | .compoundAssign _ lhs rhs => by
    rw [callsExpr, unboundNames_append]
    exact .bind (registerImplicitCallsExpr_spec scope lhs) (registerImplicitCallsExpr_spec scope rhs)
  | .sizeofType type          => by
    rw [callsExpr, unboundNames_callsType]
    exact .pure
  | .initList exprs           => by
    rw [callsExpr, unboundNames_hide]
    exact .pure
  | .int _ | .float _ | .char _ | .string _ | .var _ => .pure

theorem registerImplicitCallsExprs_spec (scope : List String) : (exprs : List Expr) →
    Adds (registerImplicitCallsExprs scope exprs) () (unboundNames scope (callsExprs exprs))
  | []            => .pure
  | expr :: exprs => by
    rw [callsExprs, unboundNames_append]
    exact .bind (registerImplicitCallsExpr_spec scope expr) (registerImplicitCallsExprs_spec scope exprs)

end

theorem maybeRegisterImplicitCallsExpr_spec (scope : List String) : (expr : Option Expr) →
    Adds (maybeRegisterImplicitCallsExpr scope expr) () (unboundNames scope (callsMaybe expr))
  | none      => .pure
  | some expr => registerImplicitCallsExpr_spec scope expr

-- The names that are registered for the calls of a body.
def seenNames (sites : List CallSite) : List String :=
  (sites.filter fun site => ¬site.hidden ∧ site.name ∉ site.outer).map (·.name)

theorem seenNames_append {calls calls' : List CallSite} :
    seenNames (calls ++ calls') = seenNames calls ++ seenNames calls' := by
  simp [seenNames]

theorem seenNames_sites {own scope : List String} {calls : List Call} :
    seenNames (sites own scope calls) = unboundNames scope calls := by
  simp [seenNames, sites, unboundNames, Function.comp_def, List.filter_map]

theorem seenNames_sitesDecl {scope : List String} {decl : Decl} :
    seenNames (sitesDecl scope decl) = unboundNames scope (callsMaybe decl.init) := by
  rw [sitesDecl, seenNames_append, seenNames_sites, seenNames_sites, unboundNames_callsType, List.nil_append]

theorem registerImplicitCallsDecls_spec (scope : List String) (decls : List Decl) :
    Adds (registerImplicitCallsDecls scope decls) (scopeDecls scope decls)
      (seenNames (sitesDecls scope decls)) := by
  induction decls generalizing scope
  case nil => exact .pure
  case cons decl decls hi =>
    rw [sitesDecls, seenNames_append, seenNames_sitesDecl]
    exact .bind (maybeRegisterImplicitCallsExpr_spec scope decl.init) (hi _)

theorem registerForInitImplicitCalls_spec (scope : List String) : (init : ForInit) →
    Adds (registerForInitImplicitCalls scope init) (scopeForInit scope init) (seenNames (sitesForInit scope init))
  | .noInit      => .pure
  | .expr expr   => by
    rw [sitesForInit, seenNames_sites, ←List.append_nil (unboundNames ..)]
    exact .bind (registerImplicitCallsExpr_spec scope expr) .pure
  | .decls decls => registerImplicitCallsDecls_spec scope decls

mutual

theorem registerImplicitCallsStmt_spec (scope : List String) : (stmt : Stmt) →
    Adds (registerImplicitCallsStmt scope stmt) (scopeStmt scope stmt) (seenNames (sitesStmt scope stmt))
  | .sDecl decl               => by
    rw [sitesStmt, seenNames_sitesDecl, ←List.append_nil (unboundNames ..)]
    exact .bind (maybeRegisterImplicitCallsExpr_spec scope decl.init) .pure
  | .sDecls decls             => registerImplicitCallsDecls_spec scope decls
  | .sReturn value            => by
    rw [sitesStmt, seenNames_sites, ←List.append_nil (unboundNames ..)]
    exact .bind (maybeRegisterImplicitCallsExpr_spec scope value) .pure
  | .sExpr expr               => by
    rw [sitesStmt, seenNames_sites, ←List.append_nil (unboundNames ..)]
    exact .bind (registerImplicitCallsExpr_spec scope expr) .pure
  | .sIf cond yes no          => by
    rw [sitesStmt, seenNames_append, seenNames_append, seenNames_sites, ←List.append_nil (_ ++ _),
      List.append_assoc, List.append_assoc]
    exact .bind (registerImplicitCallsExpr_spec scope cond) <| .bind (registerImplicitCalls_spec scope yes) <|
      .bind (registerImplicitCalls_spec scope no) .pure
  | .sWhile cond body         => by
    rw [sitesStmt, seenNames_append, seenNames_sites, ←List.append_nil (_ ++ _), List.append_assoc]
    exact .bind (registerImplicitCallsExpr_spec scope cond) <| .bind (registerImplicitCalls_spec scope body) .pure
  | .sDoWhile body cond       => by
    rw [sitesStmt, seenNames_append, seenNames_sites, ←List.append_nil (_ ++ _), List.append_assoc]
    exact .bind (registerImplicitCalls_spec scope body) <| .bind (registerImplicitCallsExpr_spec scope cond) .pure
  | .sFor init cond step body => by
    rw [sitesStmt, seenNames_append, seenNames_append, seenNames_append, seenNames_sites, seenNames_sites,
      ←List.append_nil (_ ++ _), List.append_assoc, List.append_assoc, List.append_assoc]
    exact .bind (registerForInitImplicitCalls_spec scope init) <|
      .bind (maybeRegisterImplicitCallsExpr_spec scope cond) <|
      .bind (maybeRegisterImplicitCallsExpr_spec scope step) <|
      .bind (registerImplicitCalls_spec (scopeForInit scope init) body) .pure
  | .sSwitch value body       => by
    rw [sitesStmt, seenNames_append, seenNames_sites, ←List.append_nil (_ ++ _), List.append_assoc]
    exact .bind (registerImplicitCallsExpr_spec scope value) <|
      .bind (registerImplicitCallsSwitch_spec scope body) .pure
  | .sCase expr               => by
    rw [sitesStmt, seenNames_sites, ←List.append_nil (unboundNames ..)]
    exact .bind (registerImplicitCallsExpr_spec scope expr) .pure
  | .sBlock body              => by
    rw [sitesStmt, ←List.append_nil (seenNames ..)]
    exact .bind (registerImplicitCalls_spec scope body) .pure
  | .sTypedef | .sDefault | .sBreak | .sContinue | .sGoto _ | .sLabel _ => .pure

theorem registerImplicitCalls_spec (scope : List String) : (stmts : List Stmt) →
    Adds (registerImplicitCalls scope stmts) () (seenNames (sitesStmts scope stmts))
  | []            => .pure
  | stmt :: stmts => by
    rw [sitesStmts, seenNames_append]
    exact .bind (registerImplicitCallsStmt_spec scope stmt) (registerImplicitCalls_spec _ stmts)

theorem registerImplicitCallsSwitch_spec (scope : List String) : (stmts : List Stmt) →
    Adds (registerImplicitCallsSwitch scope stmts) () (seenNames (sitesStmts scope stmts))
  | []            => .pure
  | stmt :: stmts => by
    have hs := registerImplicitCallsStmt_spec scope stmt
    have hr := registerImplicitCalls_spec (scopeStmt scope stmt) stmts
    rw [sitesStmts, seenNames_append]
    unfold registerImplicitCallsSwitch
    split
    case h_1 _ h =>
      cases h
      intro sc st b st' h ho
      -- The block is run by the statement that it is.
      have hb := hs sc st scope st' (run_value_bind_iff.mpr ⟨b, st', h, run_pure_iff.mpr ⟨rfl, rfl⟩⟩) ho
      exact ⟨rfl, hb.right.trans <| .nil hb.right.ordered⟩
    case h_2 _ h => cases h
    case h_3 _ _ h =>
      cases h
      exact .bind hs hr

end

end Traversal

section Claim

variable {st st' : ValueState} {body : List Stmt} {params : List String} {calls : List CallSite}

def Declared (st : ValueState) (name : String) : Prop :=
  symbolMapMember name st.functions ∨ symbolMapMember name st.globals ∨ IgnoredBuiltin name

structure FindsImplicitCalls (calls : List CallSite) (st st' : ValueState) : Prop where
  found : ∀ site ∈ calls, ¬site.Local → ¬Declared st site.name → symbolMapMember site.name st'.functions
  only  : ∀ name, ¬symbolMapMember name st.functions → symbolMapMember name st'.functions →
    ∃ site ∈ calls, site.name = name ∧ ¬site.Local

-- A call that is not local is hidden only if there is another one where the name is not declared further out, and
-- a name is called where only the clause or the declaration around the call declares it only if it is also
-- called where it is not local.
structure ImplicitCallsSeen (calls : List CallSite) (st : ValueState) : Prop where
  hidden : ∀ site ∈ calls, site.hidden → ¬site.Local → ¬Declared st site.name →
    ∃ other ∈ calls, other.name = site.name ∧ ¬other.hidden ∧ other.name ∉ other.outer
  own    : ∀ site ∈ calls, ¬site.hidden → site.name ∈ site.own → site.name ∉ site.outer →
    ¬Declared st site.name → ∃ other ∈ calls, other.name = site.name ∧ ¬other.Local

theorem mem_seenNames {name : String} :
    name ∈ seenNames calls ↔ ∃ site ∈ calls, site.name = name ∧ ¬site.hidden ∧ site.name ∉ site.outer := by
  simp only [seenNames, List.mem_map, List.mem_filter, decide_eq_true_eq]
  constructor
  · rintro ⟨site, ⟨hm, hs⟩, rfl⟩
    exact ⟨site, hm, rfl, hs⟩
  · rintro ⟨site, hm, rfl, hs⟩
    exact ⟨site, ⟨hm, hs⟩, rfl⟩

theorem not_declared_iff {name : String} :
    ¬Declared st name ↔ ¬symbolMapMember name st.functions ∧ Undeclared st name := by
  simp only [Declared, Undeclared, not_or, Bool.not_eq_true]

theorem finds_implicit_calls_iff (hr : Run (registerImplicitCalls params body sc) st () st')
    (ho : st.functions.Ordered) :
    FindsImplicitCalls (sitesStmts params body) st st' ↔ ImplicitCallsSeen (sitesStmts params body) st := by
  have ⟨_, hs⟩ := registerImplicitCalls_spec params body _ _ _ _ hr ho
  have ha {name : String} (hn : ¬Declared st name) :
      symbolMapMember name st'.functions ↔ name ∈ seenNames (sitesStmts params body) := by
    have ⟨hf, hi⟩ := not_declared_iff.mp hn
    rw [hs.functions]
    tauto
  constructor
  case mp =>
    intro h
    constructor
    case hidden =>
      intro site hm _ hl hd
      exact mem_seenNames.mp <| (ha hd).mp <| h.found site hm hl hd
    case own =>
      intro site hm hh _ hout hd
      have hf := (not_declared_iff.mp hd).left
      exact h.only _ hf <| (ha hd).mpr <| mem_seenNames.mpr ⟨site, hm, rfl, hh, hout⟩
  case mpr =>
    intro h
    constructor
    case found =>
      intro site hm hl hd
      rw [ha hd, mem_seenNames]
      by_cases hh : site.hidden
      case pos => exact h.hidden site hm hh hl hd
      case neg => exact ⟨site, hm, rfl, hh, fun ho => hl <| .inr ho⟩
    case only =>
      intro name hf hf'
      have hi : name ∈ seenNames (sitesStmts params body) ∧ Undeclared st name := by
        have := (hs.functions name).mp hf'
        tauto
      have hd : ¬Declared st name := not_declared_iff.mpr ⟨hf, hi.right⟩
      have ⟨site, hm, he, hh, hout⟩ := mem_seenNames.mp hi.left
      by_cases hl : site.Local
      case neg => exact ⟨site, hm, he, hl⟩
      case pos => exact he ▸ h.own site hm hh (hl.resolve_right hout) hout (he ▸ hd)

-- `int a[1] = { g() };`
def hiddenCall : List Stmt :=
  [.sDecl ⟨.array .int (some <| .int ['1']), "a", some <| .initList [.call (.var "g") []]⟩]

theorem not_finds_implicit_calls : ∃ st', Run (registerImplicitCalls [] hiddenCall scopeMapEmpty) {} () st' ∧
    ¬FindsImplicitCalls (sitesStmts [] hiddenCall) {} st' := by
  refine ⟨{}, rfl, fun h => ?_⟩
  have hs : ⟨⟨"g", true⟩, ["a"], []⟩ ∈ sitesStmts [] hiddenCall := by decide
  have hd : ¬Declared {} "g" := by
    rintro (h | h | h | h)
    all_goals simp [symbolMapMember, isIgnoredSideEffectCall] at h
  have hm := h.found _ hs (by simp [CallSite.Local]) hd
  cases hm

-- `int a[1] = { g() }; g();`
def repeatedCall : List Stmt :=
  hiddenCall ++ [.sExpr <| .call (.var "g") []]

theorem finds_implicit_calls_repeated :
    FindsImplicitCalls (sitesStmts [] repeatedCall) {} { functions := symbolMapInsert "g" () symbolMapEmpty } := by
  have hr : Run (registerImplicitCalls [] repeatedCall scopeMapEmpty) {} ()
      { functions := symbolMapInsert "g" () symbolMapEmpty } := rfl
  have hs : sitesStmts [] repeatedCall = [⟨⟨"g", true⟩, ["a"], []⟩, ⟨⟨"g", false⟩, [], ["a"]⟩] := rfl
  refine (finds_implicit_calls_iff hr ordered_empty).mpr ⟨fun site hm _ _ _ => ?_, fun site hm hh ho => ?_⟩
  case refine_1 =>
    rw [hs] at hm ⊢
    have hn : site.name = "g" := by
      rcases List.mem_pair.mp hm with rfl | rfl <;> rfl
    exact ⟨_, .tail _ (.head _), hn.symm, nofun, by decide⟩
  case refine_2 =>
    rw [hs] at hm
    rcases List.mem_pair.mp hm with rfl | rfl
    · exact absurd rfl hh
    · exact absurd ho (List.not_mem_nil)

end Claim
end Hcc
