import Hcc.Compile.Basic

open Stateful

namespace Hcc

variable {scope : Scope} {st st' : ValueState} {name : String} {α β : Type}

section Monad

variable {m : ValueM α} {f : α → ValueM β} {a : α}

theorem run_value_bind_iff :
    Run ((m >>= f) scope) st b st' ↔ ∃ a st₁, Run (m scope) st a st₁ ∧ Run (f a scope) st₁ b st' :=
  run_bind_iff (m := m scope) (f := fun a => f a scope)

theorem run_value_pure_iff : Run ((pure a : ValueM α) scope) st a' st' ↔ a = a' ∧ st = st' :=
  run_pure_iff

theorem run_value_map_iff {g : α → β} :
    Run ((g <$> m) scope) st b st' ↔ ∃ a, Run (m scope) st a st' ∧ g a = b := by
  rw [map_eq_pure_bind, run_value_bind_iff]
  simp only [run_value_pure_iff]
  exact ⟨fun ⟨a, _, hr, he, hs⟩ => ⟨a, hs ▸ hr, he⟩, fun ⟨a, hr, he⟩ => ⟨a, _, hr, he, rfl⟩⟩

theorem not_run_value_throw {msg : String} : ¬Run ((throw msg : ValueM α) scope) st a st' :=
  not_run_throw

end Monad

section Lookups

theorem run_lookupVarMaybe_iff : Run (lookupVarMaybe name scope) st a st' ↔
    (scopeMapLookup name scope).map Prod.fst = a ∧ st = st' :=
  run_pure_iff

theorem run_lookupVarType_iff : Run (lookupVarType name scope) st a st' ↔
    (scopeMapLookup name scope).map Prod.snd = a ∧ st = st' :=
  run_pure_iff

theorem run_lookupGlobalType_iff : Run (lookupGlobalType name scope) st a st' ↔
    symbolMapLookup name st.globals = a ∧ st = st' :=
  Fueled.done_inj.trans <| by simp

theorem run_lookupStruct_iff : Run (lookupStruct name scope) st a st' ↔
    symbolMapLookup name st.structs = a ∧ st = st' :=
  Fueled.done_inj.trans <| by simp

theorem run_lookupConstant_iff : Run (lookupConstant name scope) st a st' ↔
    symbolMapLookup name st.constants = a ∧ st = st' :=
  Fueled.done_inj.trans <| by simp

theorem run_lookupFunction_iff : Run (lookupFunction name scope) st a st' ↔
    symbolMapMember name st.functions = a ∧ st = st' :=
  Fueled.done_inj.trans <| by simp

theorem run_lookupFunctionType_iff : Run (lookupFunctionType name scope) st a st' ↔
    symbolMapLookup name st.functionTypes = a ∧ st = st' :=
  Fueled.done_inj.trans <| by simp

theorem run_currentFunctionName_iff : Run (currentFunctionName scope) st a st' ↔
    st.currentFunction = a ∧ st = st' :=
  Fueled.done_inj.trans <| by simp

end Lookups

theorem run_onValues_iff {m : ValueM α} {st st' : ExprState} : Run (onValues m) st a st' ↔
    ∃ values, Run (m st.vars) st.toValueState a values ∧ { st with toValueState := values } = st' := by
  constructor
  case mp =>
    intro hr
    obtain ⟨⟨_, values⟩, hv, hp⟩ := Fueled.bind_eq_done_ok.mp hr
    obtain ⟨rfl, rfl⟩ := Prod.mk.inj <| Except.ok.inj <| Fueled.done_inj.mp hp
    exact ⟨values, hv, rfl⟩
  case mpr =>
    rintro ⟨values, hv, rfl⟩
    exact Fueled.bind_eq_done_ok.mpr ⟨(a, values), hv, rfl⟩

theorem run_onValues_bind_iff {m : ValueM α} {f : α → ValueM β} {st st' : ExprState} :
    Run (onValues (m >>= f)) st b st' ↔ ∃ a st₁, Run (onValues m) st a st₁ ∧ Run (onValues (f a)) st₁ b st' := by
  simp only [run_onValues_iff, run_value_bind_iff]
  constructor
  case mp =>
    rintro ⟨values, ⟨a, values₁, hm, hf⟩, rfl⟩
    exact ⟨a, _, ⟨values₁, hm, rfl⟩, values, hf, rfl⟩
  case mpr =>
    rintro ⟨a, _, ⟨values₁, hm, rfl⟩, values, hf, rfl⟩
    exact ⟨values, ⟨a, values₁, hm, hf⟩, rfl⟩

theorem run_onValues_pure_iff {st st' : ExprState} :
    Run (onValues (pure a : ValueM α)) st a' st' ↔ a = a' ∧ st = st' := by
  simp only [run_onValues_iff, run_value_pure_iff]
  constructor
  case mp =>
    rintro ⟨_, ⟨ha, rfl⟩, rfl⟩
    exact ⟨ha, rfl⟩
  case mpr => exact fun ⟨ha, hs⟩ => ⟨_, ⟨ha, rfl⟩, hs⟩

theorem run_withErrorContext_iff {m : CompileM α} {st st' : CompileState} :
    Run (withErrorContext context m) st a st' ↔ Run m st a st' := by
  unfold Run withErrorContext
  rcases Fueled.cases (m st) with h | ⟨e, h⟩ | ⟨r, h⟩ <;> rw [h]
  · rfl
  · exact iff_of_false nofun nofun
  · rfl

end Hcc
