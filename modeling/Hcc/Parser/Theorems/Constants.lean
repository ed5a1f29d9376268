import Hcc.Parser.Theorems.Environment
import Hcc.SymbolTable.Theorems.Lookup
import Mathlib.Logic.Relation

namespace Hcc

-- The entry of the constants that the scopes ask for under the name.
def ParserEnv.visible (env : ParserEnv) (name : String) : List (String × Constant) :=
  match scopeMapLookup name env.bindings with
  | some (.constant value) => [(name, value)]
  | _                      => []

-- The flat constants of the environment are the ones that are visible in its scopes. An outer scope
-- is only ever restored along with its constants, so only the innermost one has to be a search tree.
structure ParserEnv.Agrees (env : ParserEnv) : Prop where
  ordered        : env.bindings.current.Ordered
  constants name : env.constants.filter (·.1 = name) = env.visible name

-- What a parse does to its environment. Scopes are left, and alternatives are given up, by going
-- back to the environment that was saved on the way in.
inductive Parser.EnvStep : List ParserEnv × ParserEnv → List ParserEnv × ParserEnv → Prop
  | enter saved env         : EnvStep (saved, env) (env :: saved, Parser.enterParserScope env)
  | leave saved env outer   : EnvStep (outer :: saved, env) (saved, outer)
  | attempt saved env       : EnvStep (saved, env) (env :: saved, env)
  | commit saved env outer  : EnvStep (outer :: saved, env) (saved, env)
  | bind saved env env' (name : String) (binding : ParserBinding) (toks toks' : List Token) :
    Parser.bindParserName name binding env toks = some (.unconsumed (.ok () env' toks')) →
    EnvStep (saved, env) (saved, env')

variable {env env' : ParserEnv} {saved : List ParserEnv} {name : String}

section Scopes

variable {α : Type} {m : ScopeMap α} {a : α}

theorem scopeMapLookup_enter : scopeMapLookup name (scopeMapEnter m) = scopeMapLookup name m := rfl

theorem scopeMapLookup_insert (h : m.current.Ordered) {key : String} :
    scopeMapLookup name (scopeMapInsert key a m) =
      if name = key then some a else scopeMapLookup name m := by
  simp only [scopeMapLookup, scopeMapLookup.lookupScopes, scopeMapInsert, h.lookup_insert]
  by_cases hk : name = key
  case pos => simp [hk]
  case neg => simp [hk]

theorem ordered_builtinTypeEnv (aliases : List (String × CType)) :
    (Parser.builtinTypeEnv aliases).current.Ordered := by
  induction aliases
  case nil  => exact SymbolMap.ordered_empty
  case cons => exact SymbolMap.Ordered.insert ‹_›

-- No builtin name is an enumerator.
theorem lookup_builtinTypeEnv (aliases : List (String × CType)) {value} :
    scopeMapLookup name (Parser.builtinTypeEnv aliases) ≠ some (.constant value) := by
  induction aliases
  case nil => nofun
  case cons _ rest hi =>
    rw [Parser.builtinTypeEnv, scopeMapLookup_insert (ordered_builtinTypeEnv rest)]
    split
    case isTrue  => nofun
    case isFalse => exact hi

end Scopes

namespace ParserEnv.Agrees

theorem initial (bits : Nat) : (Parser.initialParserEnv bits).Agrees where
  ordered        := ordered_builtinTypeEnv _
  constants name := by
    simp only [Parser.initialParserEnv, visible]
    split
    case h_1 h => exact absurd h <| lookup_builtinTypeEnv _
    case h_2   => rfl

theorem enter (h : env.Agrees) : (Parser.enterParserScope env).Agrees where
  ordered        := SymbolMap.ordered_empty
  constants name := h.constants name

-- The constants without the one that the name stands for.
theorem remaining (h : env.Agrees) (name key : String) {remaining : List (String × Constant)}
    (hr : remaining = match scopeMapLookup key env.bindings with
      | some (.constant _) => env.constants.filter (·.1 ≠ key)
      | _                  => env.constants) :
    remaining.filter (·.1 = name) = if name = key then [] else env.visible name := by
  subst hr
  split
  case h_1 =>
    rw [List.filter_filter, ← h.constants name]
    split
    case isTrue hk  => simp [hk]
    case isFalse hk => exact List.filter_congr fun entry _ => by grind
  case h_2 hc =>
    rw [h.constants name]
    split
    case isTrue hk =>
      rw [visible, hk]
      split
      case h_1 hv => exact absurd hv <| hc _
      case h_2    => rfl
    case isFalse => rfl

theorem bind (h : env.Agrees) {key binding toks toks'}
    (hb : Parser.bindParserName key binding env toks = some (.unconsumed (.ok () env' toks'))) :
    env'.Agrees := by
  unfold Parser.bindParserName at hb
  split at hb
  case isFalse => cases hb; exact h
  case isTrue =>
    cases hb
    refine ⟨h.ordered.insert, fun name => ?_⟩
    have hr := h.remaining name key rfl
    simp only [visible, scopeMapLookup_insert h.ordered] at hr ⊢
    cases binding
    case type | ordinary => exact hr.trans <| by split <;> rfl
    case constant value =>
      refine List.filter_cons.trans ?_
      by_cases hk : name = key
      case pos =>
        subst hk
        rw [if_pos (decide_eq_true rfl), if_pos rfl]
        exact congrArg _ <| hr.trans <| if_pos rfl
      case neg =>
        rw [if_neg (by simpa using Ne.symm hk), if_neg hk]
        exact hr.trans <| if_neg hk

end ParserEnv.Agrees

namespace Parser

theorem EnvStep.agrees {s s' : List ParserEnv × ParserEnv} (hs : EnvStep s s')
    (h : s.2.Agrees ∧ ∀ outer ∈ s.1, outer.Agrees) : s'.2.Agrees ∧ ∀ outer ∈ s'.1, outer.Agrees := by
  have ⟨he, ho⟩ := h
  cases hs
  case enter   => exact ⟨he.enter, List.forall_mem_cons.mpr ⟨he, ho⟩⟩
  case leave   => exact List.forall_mem_cons.mp ho
  case attempt => exact ⟨he, List.forall_mem_cons.mpr ⟨he, ho⟩⟩
  case commit  => exact ⟨he, (List.forall_mem_cons.mp ho).right⟩
  case bind hb => exact ⟨he.bind hb, ho⟩

theorem EnvStep.run_agrees {s s' : List ParserEnv × ParserEnv} (hs : Relation.ReflTransGen EnvStep s s')
    (h : s.2.Agrees ∧ ∀ outer ∈ s.1, outer.Agrees) : s'.2.Agrees ∧ ∀ outer ∈ s'.1, outer.Agrees := by
  induction hs
  case refl => exact h
  case tail hs hi => exact hs.agrees hi

-- The environments that a parse of a program can get to.
def Reached (bits : Nat) (env : ParserEnv) : Prop :=
  ∃ saved, Relation.ReflTransGen EnvStep ([], initialParserEnv bits) (saved, env)

section Reached

variable {bits : Nat} {α : Type}

theorem constants_visible (h : Reached bits env) (name : String) :
    env.constants.filter (·.1 = name) =
      match scopeMapLookup name env.bindings with
      | some (.constant value) => [(name, value)]
      | _                      => [] :=
  have ⟨_, hs⟩ := h
  (EnvStep.run_agrees hs ⟨.initial bits, nofun⟩).left.constants name

instance : EnvRelation fun x y => x = y ∧ Reached bits x where
  lookup h _    := h.left ▸ rfl
  constants h   := h.left ▸ rfl
  bits h        := h.left ▸ rfl
  enter         := fun ⟨he, _, hs⟩ => ⟨he ▸ rfl, _, hs.tail <| .enter _ _⟩
  bind name binding := {
    alike x y toks := fun ⟨he, saved, hs⟩ => by
      subst he
      have hb (env') (h : bindParserName name binding x toks = some (.unconsumed (.ok () env' toks))) :
          Reached bits env' :=
        ⟨saved, hs.tail <| .bind saved x env' name binding toks toks h⟩
      unfold bindParserName at hb ⊢
      split
      case isTrue hn  =>
        rw [if_pos hn] at hb
        exact .unconsumedOk _ _ ⟨rfl, hb _ rfl⟩
      case isFalse => exact .unconsumedOk _ _ ⟨rfl, _, hs⟩ }

-- Whatever a parser of the grammar does, it ends in an environment that is reached.
theorem Reached.yields {p : Parser α} [hp : Relates (fun x y => x = y ∧ Reached bits x) p] {toks a rest}
    (h : Reached bits env) (hy : Yields p env toks a env' rest) : Reached bits env' := by
  have hp := hp.alike env env toks ⟨rfl, h⟩
  have ⟨reply, hr, hy⟩ := Option.map_eq_some_iff.mp hy
  rw [hr] at hp
  cases hp
  case consumedError | unconsumedError => cases hy
  case consumedOk h | unconsumedOk h   => cases hy; exact h.right

theorem topDecls_reached {fuel n m toks decls rest}
    (hy : Yields (topDecls (grammar fuel) n m) (initialParserEnv bits) toks decls env rest) :
    Reached bits env :=
  .yields ⟨[], .refl⟩ hy

end Reached

-- An object in an inner scope hides the enumerator `A`, but not `B`.
theorem constants_visible_hiding : ∃ env, Reached 64 env ∧
    env.constants.filter (·.1 = "A") = [] ∧
    env.constants.filter (·.1 = "B") = [("B", constantInt 4 1)] := by
  have h := calc
    Relation.ReflTransGen EnvStep ([], initialParserEnv 64) _ :=
      .single <| .bind _ _ _ "A" (.constant (constantInt 4 0)) [] [] rfl
    Relation.ReflTransGen EnvStep _ _ :=
      .single <| .bind _ _ _ "B" (.constant (constantInt 4 1)) [] [] rfl
    Relation.ReflTransGen EnvStep _ _ := .single <| .enter _ _
    Relation.ReflTransGen EnvStep _ _ := .single <| .bind _ _ _ "A" .ordinary [] [] rfl
  have h : Reached 64 _ := ⟨_, h⟩
  exact ⟨_, h, (constants_visible h "A").trans rfl, (constants_visible h "B").trans rfl⟩

end Parser
end Hcc
