import Hcc.Lower.Scope
import Hcc.Lower.Theorems.Cases
import Hcc.Lower.Theorems.Clauses
import Hcc.Lower.Theorems.Steady.Expression

open Stateful

namespace Hcc

-- The variables `names` are bound to new temporaries in the current scope.
structure ExprState.Binds (names : List String) (st st' : ExprState) : Prop where
  parents  : st'.vars.parents = st.vars.parents
  nextTemp : st.nextTemp ≤ st'.nextTemp
  current  : ∃ bindings : List (String × Temp × CType), (bindings.map Prod.fst).Perm names ∧
              (∀ b ∈ bindings, st.nextTemp ≤ b.2.1.index ∧ b.2.1.index < st'.nextTemp) ∧
              st'.vars.current = bindings.foldl (fun scope b => symbolMapInsert b.1 b.2 scope) st.vars.current

namespace ExprState.Binds

variable {st st₁ st₂ : ExprState} {names names₁ names₂ : List String}

theorem refl : Binds [] st st :=
  ⟨rfl, le_rfl, [], .rfl, by simp, rfl⟩

theorem trans (h₁ : Binds names₁ st st₁) (h₂ : Binds names₂ st₁ st₂) :
    Binds (names₁ ++ names₂) st st₂ := by
  have ⟨bs₁, hn₁, hb₁, hc₁⟩ := h₁.current
  have ⟨bs₂, hn₂, hb₂, hc₂⟩ := h₂.current
  refine ⟨h₂.parents.trans h₁.parents, h₁.nextTemp.trans h₂.nextTemp, bs₁ ++ bs₂, ?_, ?_, ?_⟩
  · simpa using hn₁.append hn₂
  · intro b hb
    rcases List.mem_append.mp hb with hb | hb
    · exact ⟨(hb₁ b hb).left, (hb₁ b hb).right.trans_le h₂.nextTemp⟩
    · exact ⟨h₁.nextTemp.trans (hb₂ b hb).left, (hb₂ b hb).right⟩
  · rw [hc₂, hc₁, List.foldl_append]

theorem perm (h : Binds names₁ st st') (hp : names₁.Perm names₂) : Binds names₂ st st' :=
  have ⟨bs, hn, hb, hc⟩ := h.current
  ⟨h.parents, h.nextTemp, bs, hn.trans hp, hb, hc⟩

theorem vars_eq (h : Binds [] st st') : st'.vars = st.vars := by
  have ⟨bs, hn, _, hc⟩ := h.current
  obtain rfl := List.map_eq_nil_iff.mp hn.eq_nil
  have hp := h.parents
  cases hs : st.vars
  cases hs' : st'.vars
  simp_all

theorem of_steady {m : ValueM α} (hm : Steady m) (hr : Run (onValues m) st a st') :
    Binds [] st st' := by
  obtain ⟨_, hv, rfl⟩ := run_onValues_iff.mp hr
  exact ⟨rfl, (hm hv).nextTemp, [], .rfl, by simp, rfl⟩

-- The scope that is left is the one that was entered.
theorem leave {st st' : ExprState} (h : Binds names { st with vars := scopeMapEnter st.vars } st') :
    Binds [] st { st' with vars := scopeMapLeave st'.vars } := by
  have hp : st'.vars.parents = st.vars.current :: st.vars.parents := h.parents
  have hv : scopeMapLeave st'.vars = st.vars := by
    rw [scopeMapLeave, hp]
  exact ⟨congrArg ScopeMap.parents hv, h.nextTemp, [], .rfl, by simp, congrArg ScopeMap.current hv⟩

end ExprState.Binds

section Fresh

variable {st st' : ExprState} {names : List String} {bindings : List (String × Temp × CType)}

theorem ordered_insertAll {scope : SymbolMap (Temp × CType)} (h : scope.Ordered) :
    (bindings.foldl (fun scope b => symbolMapInsert b.1 b.2 scope) scope).Ordered := by
  induction bindings generalizing scope
  case nil       => exact h
  case cons hi   => exact hi h.insert

theorem all_insertAll {scope : SymbolMap (Temp × CType)} {p : Temp × CType → Prop} (h : scope.All p)
    (hb : ∀ b ∈ bindings, p b.2) :
    (bindings.foldl (fun scope b => symbolMapInsert b.1 b.2 scope) scope).All p := by
  induction bindings generalizing scope
  case nil     => exact h
  case cons hi =>
    exact hi (h.insert <| hb _ List.mem_cons_self) fun b hm => hb b <| List.mem_cons_of_mem _ hm

-- A bound name is looked up to one of the bindings.
theorem lookup_insertAll {scope : SymbolMap (Temp × CType)} {name : String} {p : Temp × CType → Prop}
    (h : scope.Ordered) (hb : ∀ b ∈ bindings, p b.2)
    (hn : name ∈ bindings.map Prod.fst ∨ ∃ v, symbolMapLookup name scope = some v ∧ p v) :
    ∃ v, symbolMapLookup name (bindings.foldl (fun scope b => symbolMapInsert b.1 b.2 scope) scope) =
      some v ∧ p v := by
  induction bindings generalizing scope
  case nil => simpa using hn
  case cons b bs hi =>
    refine hi (h.insert (k := b.1) (a := b.2)) (fun b hm => hb b <| List.mem_cons_of_mem _ hm) ?_
    rw [h.lookup_insert]
    split
    case isTrue  => exact .inr ⟨b.2, rfl, hb b List.mem_cons_self⟩
    case isFalse => simpa [*] using hn

theorem ExprState.Fresh.binds (h : st.Fresh) (hb : ExprState.Binds names st st') : st'.Fresh := by
  have ⟨bs, _, hbs, hc⟩ := hb.current
  have hl {scope : SymbolMap (Temp × CType)} (ha : scope.All (·.1.index < st.nextTemp)) :
      scope.All (·.1.index < st'.nextTemp) := ha.mono fun hv => hv.trans_le hb.nextTemp
  have ⟨ho, hos⟩ := List.forall_mem_cons.mp h.ordered
  have ⟨hv, hvs⟩ := List.forall_mem_cons.mp h.bound
  constructor <;> rw [hb.parents, hc] <;> refine List.forall_mem_cons.mpr ⟨?_, ?_⟩
  · exact ordered_insertAll ho
  · exact hos
  · exact all_insertAll (hl hv) fun b hm => (hbs b hm).right
  · exact fun scope hm => hl <| hvs scope hm

theorem lookup_lt {n : Nat} {name : String} {v : Temp × CType} :
    {scopes : List (SymbolMap (Temp × CType))} → (∀ scope ∈ scopes, scope.All (·.1.index < n)) →
    scopeMapLookup.lookupScopes name scopes = some v → v.1.index < n
  | scope :: scopes, h, hl => by
    have ⟨hs, hss⟩ := List.forall_mem_cons.mp h
    rw [scopeMapLookup.lookupScopes] at hl
    split at hl
    case h_1 he => exact hs.lookup <| he.trans hl
    case h_2    => exact lookup_lt hss hl

theorem ExprState.Fresh.lookup_lt (h : st.Fresh) {name : String} {v : Temp × CType}
    (hl : scopeMapLookup name st.vars = some v) : v.1.index < st.nextTemp :=
  Hcc.lookup_lt h.bound hl

theorem ExprState.Binds.lookup (h : ExprState.Binds names st st') (hf : st.Fresh) {name : String}
    (hn : name ∈ names) :
    ∃ v, scopeMapLookup name st'.vars = some v ∧ st.nextTemp ≤ v.1.index := by
  have ⟨bs, hp, hb, hc⟩ := h.current
  have ⟨v, hl, hv⟩ := lookup_insertAll (p := fun v => st.nextTemp ≤ v.1.index)
    (hf.ordered _ List.mem_cons_self) (fun b hm => (hb b hm).left) <| .inl <| hp.mem_iff.mpr hn
  refine ⟨v, ?_, hv⟩
  rw [scopeMapLookup, hc, scopeMapLookup.lookupScopes, hl]

-- A new binding is visible.
theorem ExprState.Binds.same_iff (h : ExprState.Binds names st st') (hf : st.Fresh) :
    (∀ name, scopeMapLookup name st'.vars = scopeMapLookup name st.vars) ↔ names = [] := by
  constructor
  case mp =>
    intro hs
    refine List.eq_nil_iff_forall_not_mem.mpr fun name hn => ?_
    have ⟨v, hl, hv⟩ := h.lookup hf hn
    exact absurd hv <| not_le.mpr <| hf.lookup_lt <| hs name ▸ hl
  case mpr =>
    rintro rfl _
    rw [h.vars_eq]

end Fresh

-- The computation binds `names`.
def Declares (names : List String) (m : ExprM α) : Prop :=
  ∀ ⦃st a st'⦄, Run m st a st' → ExprState.Binds names st st'

namespace Declares

variable {m : ExprM α} {f : α → ExprM β} {names names₁ names₂ : List String}

theorem pure {a : α} : Declares [] (pure a) := by
  intro _ _ _ hr
  exact (run_pure_iff.mp hr).right ▸ .refl

theorem get : Declares [] (get : ExprM ExprState) := by
  intro _ _ _ hr
  exact (run_get_iff.mp hr).right ▸ .refl

theorem bind (hm : Declares names₁ m) (hf : ∀ a, Declares names₂ (f a)) :
    Declares (names₁ ++ names₂) (m >>= f) := by
  intro _ _ _ hr
  have ⟨_, _, hr, hr'⟩ := run_bind_iff.mp hr
  exact (hm hr).trans <| hf _ hr'

theorem onValues {m : ValueM α} (hm : Steady m) : Declares [] (onValues m) :=
  fun _ _ _ hr => .of_steady hm hr

theorem mapM {g : α → ExprM β} {name : α → String} (hg : ∀ a, Declares [name a] (g a)) (as : List α) :
    Declares (as.map name) (as.mapM g) := by
  induction as
  case nil         => exact .pure
  case cons a _ hi =>
    rw [List.mapM_cons]
    simpa using (hg a).bind fun _ => hi.bind fun _ => .pure

theorem bindFresh {f : Temp → ExprM α} {name : String} {ty : CType} (hf : ∀ temp, Declares names (f temp)) :
    Declares (name :: names) (do
      let temp ← Hcc.onValues freshTemp
      bindVar name temp ty
      f temp) := by
  intro st a st' hr
  obtain ⟨temp, st₁, ht, hr⟩ := run_bind_iff.mp hr
  obtain ⟨_, st₂, hb, hr⟩ := run_bind_iff.mp hr
  obtain ⟨⟨_, _⟩, hv, hp⟩ := Fueled.bind_eq_done_ok.mp ht
  obtain ⟨rfl, rfl⟩ := Prod.mk.inj <| Except.ok.inj <| Fueled.done_inj.mp hp
  obtain ⟨rfl, rfl⟩ := run_freshTemp_iff.mp hv
  obtain rfl := run_modify_iff.mp hb
  have hr := hf _ hr
  refine ExprState.Binds.trans (?_ : ExprState.Binds [name] st _) hr
  exact ⟨rfl, Nat.le_succ _, [(name, ⟨st.nextTemp⟩, ty)], .rfl, by simp, rfl⟩

end Declares

-- Only declarations bind variables.
structure ExprLowering.Scoped (ex : ExprLowering) : Prop where
  lowerExpr             : ∀ expr, Declares [] (ex.lowerExpr expr)
  lowerSideEffect       : ∀ expr, Declares [] (ex.lowerSideEffect expr)
  lowerDecl             : ∀ ty name init, Declares [name] (ex.lowerDecl ty name init)
  lowerBranchComparison : ∀ op a b, Declares [] (ex.lowerBranchComparison op a b)
  coerceScalar          : ∀ ty op, Declares [] (ex.coerceScalar ty op)

theorem exprLowering_scoped (fuel) : (exprLowering fuel).Scoped where
  lowerExpr expr             := .onValues <| (lowering_steady fuel).lowerExpr expr
  lowerSideEffect expr       := .onValues <| (lowering_steady fuel).lowerSideEffect expr
  lowerDecl ty name init     :=
    .bind (.onValues <| isAggregateTypeM_respects ty) fun _ => .bindFresh fun _ => .onValues <| by
      have := lowering_steady fuel
      split
      case isTrue  => exact Lowering.lowerAggregateDecl_respects this ty _ init
      case isFalse => exact Lowering.lowerScalarDecl_respects this ty _ init
  lowerBranchComparison op a b :=
    .onValues <| Lowering.lowerBranchComparison_respects (lowering_steady fuel) op a b
  coerceScalar ty op         := .onValues <| Typing.coerceScalar_respects (lowering_steady fuel).typing ty op

end Hcc
