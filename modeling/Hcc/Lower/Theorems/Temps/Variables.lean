import Hcc.Lower.Theorems.Temps.Produces

open Stateful

namespace Hcc

variable {t temp : Temp} {st st₁ st' : ExprState} {is js : List Instr} {ops : List Operand} {op : Operand}

section Binding

theorem aggregate_iff : (st.tempContext t).Aggregate ty ↔ isAggregateIn st.structs ty := by
  cases ty <;> rfl

-- A new temporary is bound to a variable.
def ExprState.bindNew (st : ExprState) (name : String) (ty : CType) : ExprState :=
  { st with nextTemp := st.nextTemp + 1, vars := scopeMapInsert name (⟨st.nextTemp⟩, ty) st.vars }

theorem run_bindNew (hf : Run (onValues freshTemp) st temp st₁) (hb : Run (bindVar name temp ty) st₁ a st') :
    ⟨st.nextTemp⟩ = temp ∧ st.bindNew name ty = st' := by
  obtain ⟨_, hv, rfl⟩ := run_onValues_iff.mp hf
  obtain ⟨rfl, rfl⟩ := run_freshTemp_iff.mp hv
  exact ⟨rfl, run_modify_iff.mp hb⟩

theorem Produces.other (h : st.structs.Ordered) (ht : ⟨st.nextTemp⟩ ≠ t) :
    Produces t st [] [] (st.bindNew name ty) := by
  have hn : ¬st.New (st.bindNew name ty) t := by
    intro ⟨h₁, h₂⟩
    have h₂ : t.index < st.nextTemp + 1 := h₂
    exact ht <| congrArg Temp.mk <| show st.nextTemp = t.index by omega
  constructor
  case unused  => exact fun _ hf => ⟨unused_nil, spares_nil, ScopeMap.All.insert hf ht⟩
  constructor
  case le      => exact Nat.le_succ _
  case ordered => exact h
  case names   => exact fun _ => id
  case single  => exact Nat.zero_le _
  case new     => exact fun hp => absurd hp <| Nat.lt_irrefl 0
  case defines => exact fun hw => absurd hw hn
  case plain   => exact fun hp _ => ⟨unassigned_nil, ScopeMap.All.insert hp fun he => absurd he ht⟩

-- The instructions `js` define the variable that the temporary is bound to.
theorem Produces.bind (h : Introduces ⟨st.nextTemp⟩ (st.bindNew name ty) is st')
    (hs : creations ⟨st.nextTemp⟩ js ≤ 1) (hd : 0 < creations ⟨st.nextTemp⟩ js ∨ ¬Unassigned ⟨st.nextTemp⟩ js)
    (hp : Allocates ⟨st.nextTemp⟩ js → isAggregateIn st.structs ty ∧
      (Unassigned ⟨st.nextTemp⟩ is → Unassigned ⟨st.nextTemp⟩ js)) :
    Produces ⟨st.nextTemp⟩ st js ops st' := by
  have hw : st.New st' ⟨st.nextTemp⟩ := ⟨le_rfl, h.le⟩
  constructor
  case unused  => exact fun hn => absurd hw hn
  constructor
  case le      => exact (Nat.le_succ _).trans h.le
  case ordered => exact h.ordered
  case names   => exact h.names
  case single  => exact hs
  case new     => exact fun _ => hw
  case defines => exact fun _ => hd
  case plain   =>
    intro hv ha
    have ha := ha.resolve_left <| not_not_intro hw
    have ⟨hg, hu⟩ := hp ha
    have hb : (st.bindNew name ty).Plain ⟨st.nextTemp⟩ := ScopeMap.All.insert hv fun _ => aggregate_iff.mpr hg
    have hn : ¬(st.bindNew name ty).New st' ⟨st.nextTemp⟩ := fun hn => absurd hn.left <| Nat.not_succ_le_self _
    have ⟨hu', hv'⟩ := h.plain hb <| .inl hn
    exact ⟨hu hu', hv'⟩

-- The temporary of a variable is not created by the instructions behind its declaration.
theorem Introduces.bound (h : Introduces ⟨st.nextTemp⟩ (st.bindNew name ty) is st') :
    creations ⟨st.nextTemp⟩ is = 0 := by
  by_contra hc
  have hn := h.new <| Nat.pos_of_ne_zero hc
  exact absurd hn.left <| Nat.not_succ_le_self _

end Binding

section Declarations

variable {l : Lowering} {fuel : Nat} (hl : ∀ ctx, l.AllTrack ctx) (hs : l.AllRespect ValueState.Grows)
         (ho : st.structs.Ordered)

include hl hs ho

theorem lowerScalarDecl_produces
    (hr : Run (onValues (l.lowerScalarDecl ty ⟨st.nextTemp⟩ init)) (st.bindNew name ty) is st') :
    Produces t st is [] st' := by
  unfold Lowering.lowerScalarDecl at hr
  cases init
  case none =>
    obtain ⟨rfl, rfl⟩ := run_onValues_pure_iff.mp hr
    by_cases ht : ⟨st.nextTemp⟩ = t
    case neg => exact (Produces.other ho ht).concat (by simpa [Instr.created]) (by simp [Instr.assigned]) rfl (by simp [Instr.operands])
    case pos =>
      subst ht
      refine Produces.bind (.refl ho) (by simp [Instr.created, Instr.nested]) (.inl ?_) ?_
      · simp [Instr.created]
      · rintro ⟨_, hm⟩
        simp [Instr.nested, inner_eq, allInstrs] at hm
  case some expr =>
    obtain ⟨⟨e, op⟩, st₁, he, hr⟩ := run_onValues_bind_iff.mp hr
    obtain ⟨⟨c, o⟩, st₂, hc, hp⟩ := run_onValues_bind_iff.mp hr
    obtain ⟨rfl, rfl⟩ := run_onValues_pure_iff.mp hp
    have h {t} : Produces t (st.bindNew name ty) (e ++ c) [o] st₂ :=
      (Produces.refl ho : Produces t (st.bindNew name ty) [] [] _)
        |>.run he (hs.lowerExpr _) (fun _ hN _ => (hl _).lowerExpr hN)
        |>.run hc (Typing.coerceScalar_respects hs.typing _ _) fun {ctx _} he _ hN =>
          Typing.coerceScalar_tracks (hl ctx).typing fun h => he ▸ (spares_cons.mp (hN h)).left
    by_cases ht : ⟨st.nextTemp⟩ = t
    case neg =>
      exact ((Produces.other ho ht).append h).concat (by simp [Instr.created]) (by simpa [Instr.assigned]) rfl
        (by simp [Instr.operands])
    case pos =>
      subst ht
      have hc : creations ⟨st.nextTemp⟩ (e ++ c ++ [.copy ⟨st.nextTemp⟩ o]) = 0 := by
        rw [creations_append, h.toIntroduces.bound]
        simp [Instr.created, Instr.nested]
      refine Produces.bind h.toIntroduces (hc ▸ Nat.zero_le _) (.inr ?_) fun ha => ?_
      · simp [Instr.assigned]
      · exact absurd (hc ▸ ha.pos) <| Nat.lt_irrefl 0

theorem lowerAggregateDecl_produces
    (hr : Run (onValues (l.lowerAggregateDecl fuel ty ⟨st.nextTemp⟩ init)) (st.bindNew name ty) is st')
    (ha : isAggregateIn st.structs ty) : Produces t st is [] st' := by
  obtain ⟨size, st₁, hz, hr⟩ := run_onValues_bind_iff.mp hr
  obtain ⟨js, st₂, hi, hp⟩ := run_onValues_bind_iff.mp hr
  obtain ⟨rfl, rfl⟩ := run_onValues_pure_iff.mp hp
  let init' := l.typeSize ty >>= fun _ => l.lowerAggregateDeclInit fuel ty ⟨st.nextTemp⟩ init
  have hr : Run (onValues init') (st.bindNew name ty) js st₂ := run_onValues_bind_iff.mpr ⟨size, st₁, hz, hi⟩
  have hg : Respects ValueState.Grows init' :=
    .bind (hs.typing.typeSize _) fun _ => Lowering.lowerAggregateDeclInit_respects hs _ _ _
  by_cases ht : ⟨st.nextTemp⟩ = t
  case neg =>
    have h : Produces t st [] [] (st.bindNew name ty) := .other ho ht
    have h := h.run hr hg fun {ctx _} he hN _ =>
      .quiet ((hl ctx).typing.typeSize _) fun _ =>
        Lowering.lowerAggregateDeclInit_tracks (hl _) hN fun _ => he ▸ ht
    exact (h.concat (i := .alloca ⟨st.nextTemp⟩ size) (by simpa [Instr.created]) (by simp [Instr.assigned]) rfl (by simp [Instr.operands])).perm <|
      List.perm_append_singleton _ _
  case pos =>
    subst ht
    have ho : (st.bindNew name ty).structs.Ordered := ho
    have h : Introduces ⟨st.nextTemp⟩ (st.bindNew name ty) js st₂ := .run ho hr hg fun {ctx} _ =>
      .quiet ((hl ctx).typing.typeSize _) fun _ =>
        Lowering.lowerAggregateDeclInit_tracks (hl _) False.elim False.elim
    have hc : creations ⟨st.nextTemp⟩ (.alloca ⟨st.nextTemp⟩ size :: js) = 1 := by
      rw [creations_cons, h.bound]
      simp [Instr.created, Instr.nested]
    refine Produces.bind h hc.le (.inl <| hc ▸ Nat.one_pos) fun _ => ⟨ha, fun hu => ?_⟩
    simpa [Instr.assigned, Instr.nested] using hu

theorem lowerDecl_produces (hr : Run (l.lowerDecl fuel ty name init) st is st') : Produces t st is [] st' := by
  simp only [Lowering.lowerDecl, run_bind_iff] at hr
  obtain ⟨aggregate, _, ha, temp, st₁, hf, _, st₂, hb, hr'⟩ := hr
  obtain ⟨_, hv, rfl⟩ := run_onValues_iff.mp ha
  obtain ⟨hg, rfl⟩ := run_isAggregateTypeM_iff.mp hv
  obtain ⟨rfl, rfl⟩ := run_bindNew hf hb
  split at hr'
  case isTrue h => exact lowerAggregateDecl_produces hl hs ho hr' <| hg.trans h
  case isFalse  => exact lowerScalarDecl_produces hl hs ho hr'

end Declarations

theorem lowerParams_produces (ho : st.structs.Ordered) (hr : Run (lowerParams index params) st is st') :
    Produces t st is [] st' := by
  induction params generalizing index st is
  case nil =>
    obtain ⟨rfl, rfl⟩ := run_pure_iff.mp hr
    exact .refl ho
  case cons param _ hi =>
    simp only [lowerParams, run_bind_iff, run_pure_iff] at hr
    obtain ⟨temp, st₁, hf, _, st₂, hb, js, _, hr, rfl, rfl⟩ := hr
    obtain ⟨rfl, rfl⟩ := run_bindNew hf hb
    have ho' : (st.bindNew param.name param.type).structs.Ordered := ho
    have h := hi ho' hr
    by_cases ht : ⟨st.nextTemp⟩ = t
    case neg =>
      exact (((Produces.other ho ht).append h).concat (i := .param ⟨st.nextTemp⟩ index)
        (by simpa [Instr.created]) (by simp [Instr.assigned]) rfl (by simp [Instr.operands])).perm <| List.perm_append_singleton _ _
    case pos =>
      subst ht
      have hc : creations ⟨st.nextTemp⟩ (.param ⟨st.nextTemp⟩ index :: js) = 1 := by
        rw [creations_cons, h.toIntroduces.bound]
        simp [Instr.created, Instr.nested]
      refine Produces.bind h.toIntroduces hc.le (.inl <| hc ▸ Nat.one_pos) ?_
      rintro ⟨size, hm⟩
      have ha : Allocates ⟨st.nextTemp⟩ js := ⟨size, by simpa [Instr.nested, inner_eq, allInstrs] using hm⟩
      exact absurd (h.toIntroduces.bound ▸ ha.pos) <| Nat.lt_irrefl 0

end Hcc
