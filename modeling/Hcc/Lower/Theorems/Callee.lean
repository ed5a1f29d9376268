import Hcc.Compile.Run
import Hcc.Lower.Callee
import Hcc.Lower.Theorems.Steady.Expression

open Stateful

namespace Hcc

variable {scope : Scope} {st st' : ValueState} {name : String} {args : List Expr}
variable {instrs : List Instr} {op : Operand} {fuel : Nat}

section Operands

variable {t : Typing} {temp : Temp} {ty : CType}

theorem run_freshTemp_op {instrs : List Instr} {g : Temp → Instr}
    (hr : Run ((do let out ← freshTemp; return ([g out], .temp out) : ValueM (List Instr × Operand)) scope)
      st (instrs, op) st') : ∃ temp, op = .temp temp := by
  obtain ⟨out, _, _, hr⟩ := run_value_bind_iff.mp hr
  exact ⟨out, (Prod.mk.inj (run_value_pure_iff.mp hr).left).right.symm⟩

-- A variable is never replaced by a constant or by a label.
theorem coerceScalar_temp (hr : Run (t.coerceScalar ty (.temp temp) scope) st (instrs, op) st') :
    ∃ temp', op = .temp temp' := by
  unfold Typing.coerceScalar at hr
  split at hr
  case h_1 => exact run_freshTemp_op hr
  case h_2 =>
    obtain ⟨integer, _, _, hr⟩ := run_value_bind_iff.mp hr
    split at hr
    case isTrue  => exact ⟨temp, (Prod.mk.inj (run_value_pure_iff.mp hr).left).right.symm⟩
    case isFalse =>
      obtain ⟨size, _, _, hr⟩ := run_value_bind_iff.mp hr
      have hi : coerceImmediateScalar (isSignedIntegerType ty) size (.temp temp) = none := by
        unfold coerceImmediateScalar
        split <;> rfl
      rw [hi] at hr
      split at hr
      case isTrue  => exact ⟨temp, (Prod.mk.inj (run_value_pure_iff.mp hr).left).right.symm⟩
      case isFalse =>
        simp only at hr
        split at hr
        case isTrue  => exact run_freshTemp_op hr
        case isFalse => exact run_freshTemp_op hr

theorem lowerTypedGlobalVarExpr_op {l : Lowering}
    (hr : Run (l.lowerTypedGlobalVarExpr name ty scope) st (instrs, op) st') :
    op = .global name ∨ ∃ temp, op = .temp temp := by
  unfold Lowering.lowerTypedGlobalVarExpr at hr
  split at hr
  case h_1 => exact .inl (Prod.mk.inj (run_value_pure_iff.mp hr).left).right.symm
  case h_2 =>
    obtain ⟨aggregate, _, _, hr⟩ := run_value_bind_iff.mp hr
    split at hr
    case isTrue  => exact .inl (Prod.mk.inj (run_value_pure_iff.mp hr).left).right.symm
    case isFalse =>
      obtain ⟨out, _, _, hr⟩ := run_value_bind_iff.mp hr
      obtain ⟨_, _, _, hr⟩ := run_value_bind_iff.mp hr
      exact .inr ⟨out, (Prod.mk.inj (run_value_pure_iff.mp hr).left).right.symm⟩

end Operands

section Names

theorem freshDataLabel_contains (hr : Run (freshDataLabel scope) st label st') : 'L' ∈ label.toList := by
  obtain ⟨rfl, _⟩ := run_freshDataLabel_iff.mp hr
  simp [ValueState.dataLabel, String.toList_append]

theorem isFunctionNameMacro_contains (h : isFunctionNameMacro name) : 'L' ∉ name.toList := by
  have h : name = "__func__" ∨ name = "__FUNCTION__" ∨ name = "__PRETTY_FUNCTION__" := by
    simpa [isFunctionNameMacro] using h
  rcases h with rfl | rfl | rfl <;> decide

theorem lowerExpr_string {text : List Char}
    (hr : Run ((lowering fuel).lowerExpr (.string text) scope) st (instrs, op) st') :
    ∃ label, op = .global label ∧ 'L' ∈ label.toList := by
  cases fuel
  case zero => exact absurd hr not_run_outOfFuel
  case succ =>
    obtain ⟨label, _, hl, hr⟩ := run_value_bind_iff.mp hr
    obtain ⟨_, _, _, hr⟩ := run_value_bind_iff.mp hr
    exact ⟨label, (Prod.mk.inj (run_value_pure_iff.mp hr).left).right.symm, freshDataLabel_contains hl⟩

-- The reference of a variable or of an object.
inductive ReadsEntity (scope : Scope) (name : String) (st st' : ValueState) (instrs : List Instr)
    (op : Operand) : Entity → Prop
  | localVar (n : Nat) : Run ((lowering n).coerceScalar type (.temp temp) scope) st (instrs, op) st' →
    ReadsEntity scope name st st' instrs op (.localVar temp type)
  | object (n : Nat) : Run ((lowering n).lowerTypedGlobalVarExpr name type scope) st (instrs, op) st' →
    ReadsEntity scope name st st' instrs op (.object type)

-- The reference of a constant.
def ReadsConstant (name : String) (op : Operand) : Prop :=
  (∃ value, op = .imm value) ∨ ∃ label, op = .global label ∧ label ≠ name

theorem lowerNonConstantVarExpr_reads (hf : symbolMapMember name st.functions = false)
    (hr : Run ((lowering fuel).lowerNonConstantVarExpr name scope) st (instrs, op) st') :
    ∃ entity, entity? scope st name = some entity ∧ ReadsEntity scope name st st' instrs op entity := by
  obtain ⟨_, _, hl, hr⟩ := run_value_bind_iff.mp hr
  obtain ⟨rfl, rfl⟩ := run_lookupVarMaybe_iff.mp hl
  cases hv : scopeMapLookup name scope <;> simp only [hv, Option.map] at hr
  case some binding =>
    obtain ⟨_, _, ht, hr⟩ := run_value_bind_iff.mp hr
    obtain ⟨rfl, rfl⟩ := run_lookupVarType_iff.mp ht
    obtain ⟨_, _, ht, hr⟩ := run_value_bind_iff.mp hr
    rw [hv] at ht
    obtain ⟨rfl, rfl⟩ := run_value_pure_iff.mp ht
    exact ⟨_, by simp [entity?, hv], .localVar fuel hr⟩
  case none =>
    obtain ⟨_, _, hl, hr⟩ := run_value_bind_iff.mp hr
    obtain ⟨rfl, rfl⟩ := run_lookupFunction_iff.mp hl
    simp only [hf] at hr
    obtain ⟨_, _, hg, hr⟩ := run_value_bind_iff.mp hr
    obtain ⟨rfl, rfl⟩ := run_lookupGlobalType_iff.mp hg
    cases hg : symbolMapLookup name st.globals <;> simp only [hg] at hr
    case none => exact absurd hr not_run_value_throw
    case some type => exact ⟨_, by simp [entity?, hv, hf, hg], .object fuel hr⟩

theorem lowerExpr_var (hf : symbolMapMember name st.functions = false)
    (hr : Run ((lowering fuel).lowerExpr (.var name) scope) st (instrs, op) st') :
    if isFunctionNameMacro name = false ∧ builtinConstant name = none ∧
        symbolMapLookup name st.constants = none
      then ∃ entity, entity? scope st name = some entity ∧ ReadsEntity scope name st st' instrs op entity
      else ReadsConstant name op := by
  cases fuel
  case zero => exact absurd hr not_run_outOfFuel
  case succ n =>
    change Run ((lowering n).lowerVarExpr name scope) st (instrs, op) st' at hr
    unfold Lowering.lowerVarExpr at hr
    split at hr
    case isTrue hm =>
      rw [if_neg (by simp [hm])]
      obtain ⟨function, _, _, hr⟩ := run_value_bind_iff.mp hr
      cases function
      case none => exact .inl ⟨0, (Prod.mk.inj (run_value_pure_iff.mp hr).left).right.symm⟩
      case some =>
        have ⟨label, hl, hc⟩ := lowerExpr_string hr
        exact .inr ⟨label, hl, fun he => isFunctionNameMacro_contains hm <| he ▸ hc⟩
    case isFalse hm =>
      cases hb : builtinConstant name <;> simp only [hb] at hr
      case some value =>
        rw [if_neg (by simp)]
        exact .inl ⟨value, (Prod.mk.inj (run_value_pure_iff.mp hr).left).right.symm⟩
      case none =>
        obtain ⟨constant, _, hc, hr⟩ := run_value_bind_iff.mp hr
        obtain ⟨rfl, rfl⟩ := run_lookupConstant_iff.mp hc
        cases hv : symbolMapLookup name st.constants <;> simp only [hv] at hr
        case some value =>
          rw [if_neg (by simp)]
          exact .inl ⟨value, (Prod.mk.inj (run_value_pure_iff.mp hr).left).right.symm⟩
        case none =>
          rw [if_pos (by simpa using hm)]
          exact lowerNonConstantVarExpr_reads hf hr

end Names

section Calls

variable {result : Option Temp} {entity : Entity}

theorem eq_of_append_singleton {α : Type} {as bs : List α} {a b : α} (h : as ++ [a] = bs ++ [b]) :
    as = bs ∧ a = b :=
  have ⟨h₁, h₂⟩ := List.append_inj' h rfl
  ⟨h₁, List.singleton_inj.mp h₂⟩

theorem CallsEntity.direct {argInstrs : List Instr} {argOps : List Operand}
    (h : CallsEntity scope name args result entity (argInstrs ++ [.call result name argOps])) :
    entity = .function := by
  generalize hi : argInstrs ++ [.call result name argOps] = instrs at h
  cases h
  case function => rfl
  case localVar => exact nomatch (eq_of_append_singleton hi).right
  case object   => exact nomatch (eq_of_append_singleton hi).right

theorem CallsEntity.indirect {calleeInstrs : List Instr} {argOps : List Operand}
    (h : CallsEntity scope name args result entity (calleeInstrs ++ [.callIndirect result op argOps])) :
    ¬ReadsConstant name op := by
  generalize hi : calleeInstrs ++ [.callIndirect result op argOps] = instrs at h
  cases h
  case function => exact nomatch (eq_of_append_singleton hi).right
  case localVar hc _ =>
    have ⟨_, ht⟩ := coerceScalar_temp hc
    obtain ⟨_, rfl, _⟩ := Instr.callIndirect.inj (eq_of_append_singleton hi).right
    rw [ht]
    rintro (⟨_, _⟩ | ⟨_, _, _⟩) <;> contradiction
  case object hc _ =>
    obtain ⟨_, rfl, _⟩ := Instr.callIndirect.inj (eq_of_append_singleton hi).right
    rcases lowerTypedGlobalVarExpr_op hc with rfl | ⟨_, rfl⟩
    · rintro (⟨_, h⟩ | ⟨_, h, hn⟩)
      · exact nomatch h
      · exact hn (Operand.global.inj h).symm
    · rintro (⟨_, h⟩ | ⟨_, h, _⟩) <;> exact nomatch h

theorem lowerIndirectCallInstrs_denoted {st₁ : ValueState} (he : st.Extends st₁)
    (hf : symbolMapMember name st.functions = false)
    (hr : Run ((lowering fuel).lowerIndirectCallInstrs result (.var name) args scope) st₁ instrs st') :
    CallsDenoted scope st name args result instrs ↔ CalleeResolves scope st name := by
  have hs : entity? scope st₁ name = entity? scope st name := by
    rw [entity?, entity?, he.functions, he.globals]
  obtain ⟨⟨calleeInstrs, calleeOp⟩, st₂, hc, hr⟩ := run_value_bind_iff.mp hr
  obtain ⟨⟨argInstrs, argOps⟩, st₃, ha, hr⟩ := run_value_bind_iff.mp hr
  obtain ⟨rfl, rfl⟩ := run_value_pure_iff.mp hr
  have hc := lowerExpr_var (he.functions ▸ hf) hc
  rw [CalleeResolves, if_neg (ne_true_of_eq_false hf), ←he.constants]
  split at hc
  case isTrue hn =>
    have ⟨entity, hd, hc⟩ := hc
    refine iff_of_true ⟨entity, hs ▸ hd, ?_⟩ hn
    cases hc
    case localVar n hc => exact .localVar n fuel hc ha
    case object n hc   => exact .object n fuel hc ha
  case isFalse hn =>
    refine iff_of_false ?_ hn
    rintro ⟨entity, -, h⟩
    exact h.indirect hc

theorem direct_denoted {argInstrs : List Instr} {argOps : List Operand} {st₁ st₂ : ValueState}
    (hf : symbolMapMember name st.functions)
    (hr : Run ((lowering fuel).lowerCallArgs args scope) st₁ (argInstrs, argOps) st₂) :
    CallsDenoted scope st name args result (argInstrs ++ [.call result name argOps]) ↔
      CalleeResolves scope st name := by
  rw [CalleeResolves, if_pos hf, CallsDenoted, entity?]
  cases scopeMapLookup name scope
  case none        => exact iff_of_true ⟨.function, if_pos hf, .function fuel hr⟩ rfl
  case some binding =>
    refine iff_of_false ?_ nofun
    rintro ⟨entity, he, h⟩
    obtain rfl := h.direct
    exact nomatch Option.some.inj he

theorem lowerCallExpr_denoted (hr : Run ((lowering fuel).lowerCallExpr (.var name) args scope) st (instrs, op) st') :
    (∃ out, op = .temp out ∧ CallsDenoted scope st name args (some out) instrs) ↔
      CalleeResolves scope st name := by
  obtain ⟨_, _, hl, hr⟩ := run_value_bind_iff.mp hr
  obtain ⟨rfl, rfl⟩ := run_lookupFunction_iff.mp hl
  split at hr
  case isTrue hf =>
    obtain ⟨⟨argInstrs, argOps⟩, _, ha, hr⟩ := run_value_bind_iff.mp hr
    obtain ⟨out, _, _, hr⟩ := run_value_bind_iff.mp hr
    obtain ⟨h, _⟩ := run_value_pure_iff.mp hr
    obtain ⟨rfl, rfl⟩ := Prod.mk.inj h
    simpa using direct_denoted hf ha
  case isFalse hf =>
    obtain ⟨out, _, ht, hr⟩ := run_value_bind_iff.mp hr
    obtain ⟨_, _, hi, hr⟩ := run_value_bind_iff.mp hr
    obtain ⟨h, _⟩ := run_value_pure_iff.mp hr
    obtain ⟨rfl, rfl⟩ := Prod.mk.inj h
    simpa using lowerIndirectCallInstrs_denoted (freshTemp_respects ht) (Bool.eq_false_of_not_eq_true hf) hi

theorem not_callsDenoted_nil : ¬CallsDenoted scope st name args result [] := by
  rintro ⟨entity, -, h⟩
  generalize hi : [] = instrs at h
  cases h <;> simp at hi

theorem lowerCallSideEffect_denoted
    (hr : Run ((lowering fuel).lowerCallSideEffect (.var name) args scope) st instrs st') :
    CallsDenoted scope st name args none instrs ↔
      CalleeResolves scope st name ∧ isDroppedCall name = false := by
  simp only [Lowering.lowerCallSideEffect] at hr
  split at hr
  case isTrue ha =>
    refine iff_of_false ?_ (by simp [isDroppedCall, ha])
    split at hr
    case isTrue  => exact (run_value_pure_iff.mp hr).left ▸ not_callsDenoted_nil
    case isFalse => exact absurd hr not_run_value_throw
  case isFalse ha =>
    split at hr
    case isTrue hs =>
      exact iff_of_false ((run_value_pure_iff.mp hr).left ▸ not_callsDenoted_nil) (by simp [isDroppedCall, hs])
    case isFalse hs =>
      rw [and_iff_left (by simp [isDroppedCall, ha, hs])]
      obtain ⟨_, _, hl, hr⟩ := run_value_bind_iff.mp hr
      obtain ⟨rfl, rfl⟩ := run_lookupFunction_iff.mp hl
      split at hr
      case isTrue hf =>
        obtain ⟨⟨argInstrs, argOps⟩, _, ha, hr⟩ := run_value_bind_iff.mp hr
        obtain ⟨rfl, _⟩ := run_value_pure_iff.mp hr
        exact direct_denoted hf ha
      case isFalse hf =>
        exact lowerIndirectCallInstrs_denoted .refl (Bool.eq_false_of_not_eq_true hf) hr

end Calls

-- The type of a called name that is not local.
theorem callNameType_eq (hv : scopeMapLookup name scope = none)
    (hr : Run (Typing.callNameType name scope) st type st') :
    type = ((symbolMapLookup name st.functionTypes).bind functionResultType).or
      (((symbolMapLookup name st.globals).bind functionResultType).or
        (if symbolMapMember name st.functions then some .long else none)) := by
  obtain ⟨_, _, hl, hr⟩ := run_value_bind_iff.mp hr
  obtain ⟨rfl, rfl⟩ := run_lookupVarType_iff.mp hl
  rw [hv] at hr
  obtain ⟨_, _, hl, hr⟩ := run_value_bind_iff.mp hr
  obtain ⟨rfl, rfl⟩ := run_lookupFunctionType_iff.mp hl
  cases hf : (symbolMapLookup name st.functionTypes).bind functionResultType <;> simp only [hf] at hr
  case some => exact (run_value_pure_iff.mp hr).left.symm
  case none =>
    obtain ⟨_, _, hl, hr⟩ := run_value_bind_iff.mp hr
    obtain ⟨rfl, rfl⟩ := run_lookupGlobalType_iff.mp hl
    cases hg : (symbolMapLookup name st.globals).bind functionResultType <;> simp only [hg] at hr
    case some => exact (run_value_pure_iff.mp hr).left.symm
    case none =>
      obtain ⟨_, _, hl, hr⟩ := run_value_bind_iff.mp hr
      obtain ⟨rfl, rfl⟩ := run_lookupFunction_iff.mp hl
      exact (run_value_pure_iff.mp hr).left.symm

theorem callNameType_denoted {entity : Entity} (he : entity? scope st name = some entity)
    (hr : Run (Typing.callNameType name scope) st type st') :
    type = entity.resultType st name ↔ TypeResolves scope st name := by
  cases hv : scopeMapLookup name scope
  case some =>
    obtain ⟨_, _, hl, hr⟩ := run_value_bind_iff.mp hr
    obtain ⟨rfl, rfl⟩ := run_lookupVarType_iff.mp hl
    rw [hv] at hr
    rw [entity?, hv] at he
    obtain rfl := Option.some.inj he
    obtain ⟨rfl, _⟩ := run_value_pure_iff.mp hr
    exact iff_of_true rfl fun hn => by simp [hv] at hn
  case none =>
    rw [callNameType_eq hv hr, TypeResolves, forall_prop_of_true hv]
    simp only [entity?, hv] at he
    split at he
    case isTrue hf =>
      obtain rfl := Option.some.inj he
      simp only [hf, if_true, Entity.resultType]
      cases (symbolMapLookup name st.functionTypes).bind functionResultType <;>
        cases (symbolMapLookup name st.globals).bind functionResultType <;> simp
    case isFalse hf =>
      obtain ⟨ty, hg, rfl⟩ := Option.map_eq_some_iff.mp he
      simp only [hf, hg, Option.bind_some, Entity.resultType]
      cases (symbolMapLookup name st.functionTypes).bind functionResultType <;>
        cases functionResultType ty <;> simp

section Examples

-- int f();
def declaredFunction : ValueState :=
  { functions := symbolMapInsert "f" () symbolMapEmpty }

-- int (*f)();
def pointerVariable : Scope :=
  scopeMapInsert "f" (⟨0⟩, .ptr (.func .int [])) scopeMapEmpty

end Examples
end Hcc
