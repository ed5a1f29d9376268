import Hcc.Lower.Theorems.Items
import Hcc.Lower.Theorems.Temps.Statement

open Stateful

namespace Hcc

variable {t : Temp} {fn : FunctionIr}

-- The temporaries of a function are defined by its instructions.
structure FunctionIr.Sound (fn : FunctionIr) : Prop where
  defines : ∀ t, fn.Uses t → fn.Defines t
  objects : ∀ i ∈ fn.instrs, ∀ j ∈ fn.instrs, ∀ t, i.object = some t → j.result ≠ some t

section Function

variable {st st' : ExprState}

theorem defines_of_new (h : Produces t st (blockInstrs fn.blocks) ops st') (hn : st.New st' t) :
    fn.Defines t := by
  rcases h.defines hn with hc | hu
  · have ⟨i, hi, hc⟩ := List.countP_pos_iff.mp hc
    have hc : i.created = some t := by simpa using hc
    refine ⟨i, hi, ?_⟩
    rcases ho : i.object with _ | t'
    · exact .inl <| result_iff.mpr <| .inr ⟨hc, ho⟩
    · exact .inr <| (created_of_object ho).symm.trans hc
  · have ⟨i, hi, ha⟩ : ∃ i ∈ allInstrs (blockInstrs fn.blocks), i.assigned = some t := by
      simpa [Unassigned] using hu
    exact ⟨i, hi, .inl <| result_iff.mpr <| .inl ha⟩

theorem sound_of_produces (h : ∀ t, ∃ st ops st', Produces t st (blockInstrs fn.blocks) ops st' ∧
    blockOperands fn.blocks ⊆ .imm 0 :: ops ∧ st.Free t ∧ st.Plain t) : fn.Sound where
  defines t hu := by
    have ⟨st, ops, st', hp, ho, hf, _⟩ := h t
    by_cases hn : st.New st' t
    case pos => exact defines_of_new hp hn
    case neg =>
      have ⟨hi, hs, _⟩ := hp.unused hn hf
      rcases hu with ⟨i, hm, hu⟩ | hu
      · exact absurd rfl <| hi i hm _ hu
      · exact absurd rfl <| hs _ <| (List.mem_cons.mp <| ho hu).resolve_left nofun
  objects i hi j hj t ho hr := by
    have ⟨st, ops, st', hp, _, _, hv⟩ := h t
    have ha : Allocates t (blockInstrs fn.blocks) := by
      cases i <;> cases ho
      exact ⟨_, hi⟩
    have ⟨hu, _⟩ := hp.plain hv <| .inr ha
    rcases result_iff.mp hr with hr | ⟨hr, hn⟩
    · exact hu j hj hr
    · have ho' := created_of_object ho
      obtain rfl := eq_of_countP_le_one hp.single hi hj (by simpa using ho') (by simpa using hr)
      exact absurd (ho.symm.trans hn) nofun

end Function

section Program

variable {st st' : CompileState}

theorem defaultReturnTerm_operands (hr : Run defaultReturnTerm st term st') :
    term.operands ⊆ [.imm 0] ∧ st'.toExprState = st.toExprState := by
  simp only [defaultReturnTerm, run_bind_iff] at hr
  obtain ⟨ty, _, ht, hr⟩ := hr
  have he := currentReturnType_state <| run_onExprs_of ht
  split at hr
  all_goals
    obtain ⟨rfl, rfl⟩ := run_pure_iff.mp hr
    exact ⟨by simp [Terminator.operands], he⟩

theorem lowerFunction_sound (ho : st.structs.Ordered)
    (hr : Run (lowerFunction (exprLowering fuel) fuel name params body) st fn st') : fn.Sound := by
  obtain ⟨_, hs, rfl⟩ := run_within_iff.mp <| run_withErrorContext_iff.mp hr
  obtain ⟨_, hc, rfl⟩ := run_within_iff.mp hs
  simp only [lowerFunctionBody, run_bind_iff, run_pure_iff] at hc
  obtain ⟨_, st₁, hf, params, st₂, hp, term, st₃, ht, blocks, st₄, hb, rfl, rfl⟩ := hc
  refine sound_of_produces fun t => ?_
  have he := freshBlock_exprs hf
  have h₁ : Produces t _ _ [] _ := lowerParams_produces (he ▸ ho) <| run_onExprs_of hp
  obtain ⟨hs, he'⟩ := defaultReturnTerm_operands ht
  have ho' : st₃.structs.Ordered := he' ▸ h₁.ordered
  obtain ⟨is, ops, h₂, hi, hops⟩ : Lowers t _ _ _ blocks _ :=
    lowerStatementsFrom_lowers (exprLowering_produces fuel) ho' hb
  rw [he'] at h₂
  refine ⟨_, _, _, (h₁.append h₂).perm hi.symm, fun op hm => ?_, ?_, ?_⟩
  · rcases List.mem_append.mp (hops hm) with hm | hm
    · exact List.mem_cons.mpr <| .inl <| List.mem_singleton.mp <| hs hm
    · exact List.mem_cons_of_mem _ hm
  · exact he ▸ ScopeMap.all_empty
  · exact he ▸ ScopeMap.all_empty

-- The functions that are written are sound.
def WritesSound (m : CompileM (List TopItemIr)) : Prop :=
  ∀ ⦃c tops c'⦄, Run m c tops c' → c.structs.Ordered →
    c'.structs.Ordered ∧ ∀ fn, .function fn ∈ tops → fn.Sound

namespace WritesSound

variable {m m' : CompileM (List TopItemIr)} {α : Type} {f : α → CompileM (List TopItemIr)}

theorem nil : WritesSound (return []) := by
  intro c tops c' hr ho
  obtain ⟨rfl, rfl⟩ := run_pure_iff.mp hr
  exact ⟨ho, nofun⟩

theorem bind {m : CompileM α} {p : α → Prop}
    (hm : ∀ {c a c'}, Run m c a c' → c.structs.Ordered → c'.structs.Ordered ∧ p a)
    (hf : ∀ a, p a → WritesSound (f a)) : WritesSound (m >>= f) := by
  intro c tops c' hr ho
  have ⟨a, _, hr, hr'⟩ := run_bind_iff.mp hr
  have ⟨ho, ha⟩ := hm hr ho
  exact hf a ha hr' ho

theorem before {m : CompileM α} (hm : Conforms ValueState.Grows m) (hf : ∀ a, WritesSound (f a)) :
    WritesSound (m >>= f) :=
  .bind (p := fun _ => True) (fun hr ho => ⟨(hm hr ho).left, trivial⟩) fun a _ => hf a

theorem append (hm : WritesSound m) (hm' : WritesSound m') :
    WritesSound (do let items ← m; let items' ← m'; return items ++ items') := by
  intro c tops c' hr ho
  simp only [run_bind_iff, run_pure_iff] at hr
  obtain ⟨_, _, hr, _, _, hr', rfl, rfl⟩ := hr
  obtain ⟨ho, hs⟩ := hm hr ho
  obtain ⟨ho, hs'⟩ := hm' hr' ho
  exact ⟨ho, fun fn hm => (List.mem_append.mp hm).elim (hs fn) (hs' fn)⟩

theorem pending (hi : ∀ fn, .function fn = item → fn.Sound) :
    WritesSound (do let items ← pendingDataItemsIr; return item :: items) := by
  intro c tops c' hr ho
  simp only [run_bind_iff, run_pure_iff] at hr
  obtain ⟨_, _, hp, rfl, rfl⟩ := hr
  obtain ⟨rfl, rfl⟩ := run_pendingDataItemsIr_iff.mp hp
  exact ⟨ho, fun fn hm => (List.mem_cons.mp hm).elim (hi fn) fun hm => by simp at hm⟩

end WritesSound

theorem registerGlobalIr_sound : WritesSound (registerGlobalIr fuel decl) := by
  refine .before (.onState <| registerTypeAggregates_respects _) fun _ => ?_
  refine .before (.onState <| bindGlobal_respects _ _) fun _ => ?_
  refine .before (.onState <| Typing.globalData_respects (typing_respects fuel) _ _ _) fun _ => ?_
  exact .pending nofun

theorem registerGlobalsIr_sound : WritesSound (registerGlobalsIr fuel decls) := by
  induction decls
  case nil     => exact .nil
  case cons hi => exact .append registerGlobalIr_sound hi

theorem registerTopDeclIr_sound : WritesSound (registerTopDeclIr fuel decl) := by
  unfold registerTopDeclIr
  split
  case h_1 => exact registerGlobalIr_sound
  case h_2 => exact registerGlobalsIr_sound
  case h_3 => exact .before (.onState <| registerTopDeclShallowState_respects _) fun _ => .nil

theorem registerTopDeclsIr_sound : WritesSound (registerTopDeclsIr fuel decls) := by
  induction decls
  case nil     => exact .nil
  case cons hi => exact .append registerTopDeclIr_sound hi

theorem lowerFunctionDecl_sound : WritesSound (lowerFunctionDecl fuel name params body) := by
  refine .before (.onState <| registerImplicitCalls_respects _ _) fun _ => ?_
  refine .bind (fun hr ho => ⟨?_, lowerFunction_sound ho hr⟩) fun fn hs => .pending fun _ he => ?_
  · exact (lowerFunction_conforms (exprLowering_conforms (R := ValueState.Grows) fuel) _ _ _ _ hr ho).left
  · exact TopItemIr.function.inj he ▸ hs

theorem lowerAndEmitTopDeclsIr_sound : WritesSound (lowerAndEmitTopDeclsIr fuel decls) := by
  fun_induction lowerAndEmitTopDeclsIr fuel decls
  case case1    => exact .nil
  case case2 hi => exact .append lowerFunctionDecl_sound hi
  case case3 hi => exact hi

theorem lowerProgram_sound : WritesSound (lowerProgram fuel decls) :=
  .before (.onState registerBuiltinStructs_respects) fun _ =>
    .append registerTopDeclsIr_sound lowerAndEmitTopDeclsIr_sound

end Program
end Hcc
