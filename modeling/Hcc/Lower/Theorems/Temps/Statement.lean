import Hcc.Lower.Theorems.Temps.Variables

open Stateful

namespace Hcc

variable {t : Temp}

-- The lowering of expressions and declarations defines the temporaries that it allocates.
structure ExprLowering.AllProduce (t : Temp) (ex : ExprLowering) : Prop where
  lowerExpr             : ∀ {expr st is op st'}, st.structs.Ordered →
                          Run (ex.lowerExpr expr) st (is, op) st' → Produces t st is [op] st'
  lowerSideEffect       : ∀ {expr st is st'}, st.structs.Ordered →
                          Run (ex.lowerSideEffect expr) st is st' → Produces t st is [] st'
  lowerDecl             : ∀ {ty name init st is st'}, st.structs.Ordered →
                          Run (ex.lowerDecl ty name init) st is st' → Produces t st is [] st'
  lowerBranchComparison : ∀ {op a b st is iop left right st'}, st.structs.Ordered →
                          Run (ex.lowerBranchComparison op a b) st (is, iop, left, right) st' →
                          Produces t st is [left, right] st'
  coerceScalar          : ∀ {ty op st is st₁ js op' st'}, Produces t st is [op] st₁ →
                          Run (ex.coerceScalar ty op) st₁ (js, op') st' → Produces t st (is ++ js) [op'] st'

theorem exprLowering_produces (fuel) : (exprLowering fuel).AllProduce t where
  lowerExpr ho hr               :=
    (Produces.refl ho).run hr ((lowering_respects fuel).lowerExpr _) fun _ hN _ =>
      (lowering_tracks fuel).lowerExpr hN
  lowerSideEffect ho hr         :=
    (Produces.refl ho).run hr ((lowering_respects fuel).lowerSideEffect _) fun _ hN _ =>
      (lowering_tracks fuel).lowerSideEffect hN
  lowerDecl ho hr               :=
    lowerDecl_produces (fun _ => lowering_tracks fuel) (lowering_respects fuel) ho hr
  lowerBranchComparison ho hr   :=
    (Produces.refl ho).run hr (Lowering.lowerBranchComparison_respects (lowering_respects fuel) _ _ _)
      fun _ hN _ => Lowering.lowerBranchComparison_tracks (lowering_tracks fuel) hN
  coerceScalar h hr             :=
    h.run hr (Typing.coerceScalar_respects (lowering_respects fuel).typing _ _) fun {ctx _} he _ hN =>
      have hl : (lowering fuel).AllTrack ctx := lowering_tracks fuel
      Typing.coerceScalar_tracks hl.typing fun h => he ▸ (spares_cons.mp (hN h)).left

-- The blocks consist of `instrs` and of the instructions that are produced between the states. Their
-- terminators refer to `ops` and to the results of the instructions.
def Lowers (t : Temp) (instrs : List Instr) (ops : List Operand) (st : ExprState) (blocks : List BasicBlock)
    (st' : ExprState) : Prop :=
  ∃ is ops', Produces t st is ops' st' ∧ (blockInstrs blocks).Perm (instrs ++ is) ∧
    blockOperands blocks ⊆ ops ++ ops'

namespace Lowers

variable {instrs instrs' is : List Instr} {ops ops' : List Operand} {st st₁ st' : ExprState}
variable {blocks blocks' : List BasicBlock}

theorem ordered (h : Lowers t instrs ops st blocks st') : st'.structs.Ordered :=
  have ⟨_, _, h, _⟩ := h
  h.ordered

theorem nil (ho : st.structs.Ordered) : Lowers t [] ops st [] st :=
  ⟨[], [], .refl ho, .refl _, nofun⟩

theorem block (h : Produces t st is ops' st') (ho : term.operands ⊆ ops ++ ops') :
    Lowers t instrs ops st [⟨bid, instrs ++ is, term⟩] st' :=
  ⟨is, ops', h, by simp [blockInstrs], by simpa [blockOperands] using ho⟩

theorem last (hs : st.structs.Ordered) (ho : term.operands ⊆ ops) :
    Lowers t instrs ops st [⟨bid, instrs, term⟩] st :=
  ⟨[], [], .refl hs, by simp [blockInstrs], by simpa [blockOperands] using ho⟩

theorem jump (hs : st.structs.Ordered) : Lowers t instrs ops st [⟨bid, instrs, .jump target⟩] st :=
  .last hs <| List.nil_subset _

theorem perm (h : Lowers t instrs ops st blocks st') (hp : blocks.Perm blocks') :
    Lowers t instrs ops st blocks' st' :=
  have ⟨is, ops', h, hi, ho⟩ := h
  ⟨is, ops', h, (hp.flatMap_right _).symm.trans hi, fun _ hm => ho <| (hp.flatMap_right _).mem_iff.mpr hm⟩

theorem mono (h : Lowers t instrs ops st blocks st') (hs : ops ⊆ ops') : Lowers t instrs ops' st blocks st' :=
  have ⟨is, ops', h, hi, ho⟩ := h
  ⟨is, ops', h, hi, List.Subset.trans ho <| List.append_subset.mpr
    ⟨List.Subset.trans hs <| List.subset_append_left _ _, List.subset_append_right _ _⟩⟩

theorem widen (h : Lowers t instrs [] st blocks st') : Lowers t instrs ops st blocks st' :=
  h.mono <| List.nil_subset _

theorem join (h : Lowers t instrs ops st blocks st₁) (h' : Lowers t instrs' ops st₁ blocks' st') :
    Lowers t (instrs ++ instrs') ops st (blocks ++ blocks') st' := by
  have ⟨is₁, ops₁, h₁, hi₁, ho₁⟩ := h
  have ⟨is₂, ops₂, h₂, hi₂, ho₂⟩ := h'
  refine ⟨is₁ ++ is₂, ops₁ ++ ops₂, h₁.append h₂, ?_, ?_⟩
  · rw [blockInstrs, List.flatMap_append]
    refine (hi₁.append hi₂).trans ?_
    classical
    simp only [List.perm_iff_count, List.count_append]
    omega
  · rw [blockOperands, List.flatMap_append]
    intro op hm
    have ho₁ := @ho₁ op
    have ho₂ := @ho₂ op
    simp only [blockOperands, List.mem_append] at *
    tauto

theorem append (h : Lowers t instrs ops st blocks st₁) (h' : Lowers t [] ops st₁ blocks' st') :
    Lowers t instrs ops st (blocks ++ blocks') st' :=
  List.append_nil instrs ▸ h.join h'

theorem prepend (h : Lowers t [] ops st blocks st₁) (h' : Lowers t instrs ops st₁ blocks' st') :
    Lowers t instrs ops st (blocks ++ blocks') st' :=
  h.join h'

-- The blocks begin with the instructions that have been produced before.
theorem after (h : Produces t st is ops' st₁) (h' : Lowers t (instrs ++ is) (ops ++ ops') st₁ blocks st') :
    Lowers t instrs ops st blocks st' := by
  have ⟨is₂, ops₂, h₂, hi, ho⟩ := h'
  refine ⟨is ++ is₂, ops' ++ ops₂, h.append h₂, ?_, ?_⟩
  · rwa [←List.append_assoc]
  · rwa [←List.append_assoc]

theorem scope (h : Lowers t instrs ops { st with vars := scopeMapEnter st.vars } blocks st') :
    Lowers t instrs ops st blocks { st' with vars := scopeMapLeave st'.vars } :=
  have ⟨is, ops', h, hi, ho⟩ := h
  ⟨is, ops', h.scope, hi, ho⟩

end Lowers

section Control

variable {st st₁ st' : CompileState}

theorem run_onExprs_of {m : ExprM α} (hr : Run (onExprs m) st a st') :
    Run m st.toExprState a st'.toExprState := by
  obtain ⟨_, h, rfl⟩ := run_within_iff.mp hr
  exact h

theorem perm_swap {α : Type} {as bs cs : List α} : (as ++ bs ++ cs).Perm (as ++ cs ++ bs) := by
  rw [List.append_assoc, List.append_assoc]
  exact List.perm_append_comm.append_left as

theorem freshBlock_exprs (hr : Run freshBlock st bid st') : st'.toExprState = st.toExprState := by
  simp only [freshBlock, run_bind_iff, run_get_iff, run_pure_iff, run_set_iff] at hr
  obtain ⟨_, _, ⟨rfl, rfl⟩, _, _, rfl, rfl, rfl⟩ := hr
  rfl

theorem freshBlocks_exprs (hr : Run (freshBlocks count) st ids st') : st'.toExprState = st.toExprState := by
  induction count generalizing st ids
  case zero    => rw [(run_pure_iff.mp hr).right]
  case succ hi =>
    simp only [freshBlocks, run_bind_iff, run_pure_iff] at hr
    obtain ⟨_, _, hf, _, _, hr, rfl, rfl⟩ := hr
    exact (hi hr).trans <| freshBlock_exprs hf

theorem labelBlock_exprs (hr : Run (labelBlock name) st bid st') : st'.toExprState = st.toExprState := by
  simp only [labelBlock, run_bind_iff, run_get_iff] at hr
  obtain ⟨_, _, ⟨rfl, rfl⟩, hr⟩ := hr
  split at hr
  case h_1 => rw [(run_pure_iff.mp hr).right]
  case h_2 =>
    simp only [run_bind_iff, run_set_iff, run_pure_iff] at hr
    obtain ⟨_, _, rfl, rfl, rfl⟩ := hr
    rfl

theorem withLoopTargets_exprs {m : CompileM α} (hr : Run (withLoopTargets restId contId m) st a st') :
    ∃ st₁ st₁' : CompileState, st₁.toExprState = st.toExprState ∧ Run m st₁ a st₁' ∧
      st₁'.toExprState = st'.toExprState := by
  obtain ⟨_, h, rfl⟩ := run_within_iff.mp hr
  exact ⟨_, _, by rfl, h, by rfl⟩

theorem withBreakTarget_exprs {m : CompileM α} (hr : Run (withBreakTarget restId m) st a st') :
    ∃ st₁ st₁' : CompileState, st₁.toExprState = st.toExprState ∧ Run m st₁ a st₁' ∧
      st₁'.toExprState = st'.toExprState := by
  obtain ⟨_, h, rfl⟩ := run_within_iff.mp hr
  exact ⟨_, _, by rfl, h, by rfl⟩

end Control

section Expressions

variable {ex : ExprLowering} (hx : ex.AllProduce t) {st st' : ExprState}

include hx

theorem lowerDecls_produces (ho : st.structs.Ordered) (hr : Run (lowerDecls ex decls) st is st') :
    Produces t st is [] st' := by
  simp only [lowerDecls, run_bind_iff, run_pure_iff] at hr
  obtain ⟨lowered, _, hr, rfl, rfl⟩ := hr
  induction decls generalizing st lowered
  case nil =>
    obtain ⟨rfl, rfl⟩ := run_pure_iff.mp hr
    exact .refl ho
  case cons hi =>
    simp only [List.mapM_cons, run_bind_iff, run_pure_iff] at hr
    obtain ⟨_, _, hd, _, _, hr, rfl, rfl⟩ := hr
    have h := hx.lowerDecl ho hd
    exact h.append <| hi h.ordered _ hr

theorem lowerForInit_produces (ho : st.structs.Ordered) (hr : Run (lowerForInit ex init) st is st') :
    Produces t st is [] st' := by
  cases init
  case noInit =>
    obtain ⟨rfl, rfl⟩ := run_pure_iff.mp hr
    exact .refl ho
  case expr  => exact hx.lowerSideEffect ho hr
  case decls => exact lowerDecls_produces hx ho hr

theorem stepExpr_produces {step : Option Expr} (ho : st.structs.Ordered)
    (hr : Run (step.elim (pure []) ex.lowerSideEffect) st is st') : Produces t st is [] st' := by
  cases step
  case some => exact hx.lowerSideEffect ho hr
  case none =>
    obtain ⟨rfl, rfl⟩ := run_pure_iff.mp hr
    exact .refl ho

theorem straightInstrs_produces (hs : straightInstrs ex stmt = some action) (ho : st.structs.Ordered)
    (hr : Run action st is st') : Produces t st is [] st' := by
  cases stmt <;> simp only [straightInstrs, Option.some.injEq, reduceCtorEq] at hs <;> subst hs
  case sDecl    => exact hx.lowerDecl ho hr
  case sDecls   => exact lowerDecls_produces hx ho hr
  case sExpr    => exact hx.lowerSideEffect ho hr
  case sTypedef =>
    obtain ⟨rfl, rfl⟩ := run_pure_iff.mp hr
    exact .refl ho

omit hx in
theorem currentReturnType_state (hr : Run currentReturnType st ty st') : st' = st := by
  simp only [currentReturnType, run_bind_iff, run_get_iff] at hr
  obtain ⟨_, _, ⟨rfl, rfl⟩, hr⟩ := hr
  split at hr
  case h_1 => exact (run_pure_iff.mp hr).right.symm
  case h_2 => split at hr <;> exact (run_pure_iff.mp hr).right.symm

theorem coerceReturnOperand_produces (h : Produces t st is [op] st₁)
    (hr : Run (coerceReturnOperand ex op) st₁ (js, op') st') : Produces t st (is ++ js) [op'] st' := by
  simp only [coerceReturnOperand, run_bind_iff] at hr
  obtain ⟨ty, _, ht, hr⟩ := hr
  obtain rfl := currentReturnType_state ht
  split at hr
  case h_2 => exact hx.coerceScalar h hr
  all_goals
    obtain ⟨he, rfl⟩ := run_pure_iff.mp hr
    obtain ⟨rfl, rfl⟩ := Prod.mk.inj he
    rwa [List.append_nil]

end Expressions

section Conditions

variable {ex : ExprLowering} (hx : ex.AllProduce t) {st st' : CompileState}

include hx

theorem CondRun.lowers {cond : Expr} (h : CondRun ex bid instrs cond trueId falseId st blocks st')
    (ho : st.structs.Ordered) : Lowers t instrs [] st.toExprState blocks st'.toExprState := by
  induction h
  case value hr   => exact .block (hx.lowerExpr ho <| run_onExprs_of hr) (.refl _)
  case compare hr => exact .block (hx.lowerBranchComparison ho <| run_onExprs_of hr) (.refl _)
  case not hi     => exact hi ho
  case and hf _ _ hl hr =>
    have he := freshBlock_exprs hf
    have h := hl <| he ▸ ho
    exact he ▸ h.append (hr h.ordered)
  case or hf _ _ hl hr =>
    have he := freshBlock_exprs hf
    have h := hl <| he ▸ ho
    exact he ▸ h.append (hr h.ordered)

theorem lowerConditionBlock_lowers {cond : Expr} (ho : st.structs.Ordered)
    (hr : Run (lowerConditionBlock ex bid instrs cond trueId falseId) st blocks st') :
    Lowers t instrs [] st.toExprState blocks st'.toExprState :=
  (lowerConditionBlock_cases hr).lowers hx ho

theorem lowerLoopConditionBlocks_lowers {cond : Option Expr} (ho : st.structs.Ordered)
    (hr : Run (lowerLoopConditionBlocks ex cond condId bodyId restId) st blocks st') :
    Lowers t [] [] st.toExprState blocks st'.toExprState := by
  cases cond
  case some => exact lowerConditionBlock_lowers hx ho hr
  case none =>
    obtain ⟨rfl, rfl⟩ := run_pure_iff.mp hr
    exact .last ho <| List.nil_subset _

theorem lowerSwitchDispatch_lowers (ho : st.structs.Ordered)
    (hr : Run (lowerSwitchDispatch ex bid valueOp defaultTarget cases) st blocks st') :
    Lowers t [] [valueOp] st.toExprState blocks st'.toExprState := by
  fun_induction lowerSwitchDispatch ex bid valueOp defaultTarget cases generalizing st blocks
  case case1 =>
    obtain ⟨rfl, rfl⟩ := run_pure_iff.mp hr
    exact .last ho <| List.nil_subset _
  case case2 =>
    simp only [run_bind_iff, run_pure_iff] at hr
    obtain ⟨_, _, he, rfl, rfl⟩ := hr
    exact .block (hx.lowerExpr ho <| run_onExprs_of he) (.refl _)
  case case3 hi =>
    simp only [run_bind_iff, run_pure_iff] at hr
    obtain ⟨_, _, hf, _, _, he, _, _, hr, rfl, rfl⟩ := hr
    have hs := freshBlock_exprs hf
    have h := hx.lowerExpr (hs ▸ ho) <| run_onExprs_of he
    rw [←hs]
    exact Lowers.append (.block h (.refl _)) (hi _ h.ordered hr)

end Conditions

section Statements

variable {ex : ExprLowering} (hx : ex.AllProduce t) {st st' : CompileState}
variable {lower : BlockId → List Instr → List Stmt → Terminator → CompileM (List BasicBlock)}
variable (hl : ∀ {bid instrs stmts term st blocks st'}, st.structs.Ordered →
  Run (lower bid instrs stmts term) st blocks st' →
  Lowers t instrs term.operands st.toExprState blocks st'.toExprState)

include hl

theorem lowerUnreachableLabels_lowers (ho : st.structs.Ordered)
    (hr : Run (lowerUnreachableLabels lower stmts term) st blocks st') :
    Lowers t [] term.operands st.toExprState blocks st'.toExprState := by
  fun_induction lowerUnreachableLabels lower stmts term
  case case1 =>
    obtain ⟨rfl, rfl⟩ := run_pure_iff.mp hr
    exact .nil ho
  case case2 =>
    obtain ⟨_, _, hb, hr⟩ := run_bind_iff.mp hr
    have he := labelBlock_exprs hb
    exact he ▸ hl (he ▸ ho) hr
  case case3 hi => exact hi hr

theorem lowerIfRestTarget_lowers (ho : st.structs.Ordered)
    (hr : Run (lowerIfRestTarget lower rest term) st (restId, blocks) st') :
    Lowers t [] term.operands st.toExprState blocks st'.toExprState := by
  unfold lowerIfRestTarget at hr
  split at hr
  case h_1 =>
    obtain ⟨he, rfl⟩ := run_pure_iff.mp hr
    obtain ⟨rfl, rfl⟩ := Prod.mk.inj he
    exact .nil ho
  case h_2 =>
    simp only [lowerIfJoinTarget, run_bind_iff, run_pure_iff] at hr
    obtain ⟨_, _, hf, _, _, hr, he, rfl⟩ := hr
    obtain ⟨rfl, rfl⟩ := Prod.mk.inj he
    have he := freshBlock_exprs hf
    exact he ▸ hl (he ▸ ho) hr

theorem lowerIfNoBlocks_lowers (ho : st.structs.Ordered)
    (hr : Run (lowerIfNoBlocks lower no noId restId) st blocks st') :
    Lowers t [] [] st.toExprState blocks st'.toExprState := by
  unfold lowerIfNoBlocks at hr
  split at hr
  case h_1 =>
    obtain ⟨rfl, rfl⟩ := run_pure_iff.mp hr
    exact .nil ho
  case h_2 => exact hl ho hr

theorem lowerSwitchClauses_lowers (ho : st.structs.Ordered)
    (hr : Run (lowerSwitchClauses lower restId clauses) st blocks st') :
    Lowers t [] [] st.toExprState blocks st'.toExprState := by
  induction clauses generalizing st blocks
  case nil =>
    obtain ⟨rfl, rfl⟩ := run_pure_iff.mp hr
    exact .nil ho
  case cons hi =>
    simp only [lowerSwitchClauses, run_bind_iff, run_pure_iff] at hr
    obtain ⟨_, _, hb, _, _, hr, rfl, rfl⟩ := hr
    have h := hl ho hb
    exact h.append <| hi h.ordered hr

omit hl in
theorem withLoopTargets_lowers {m : CompileM (List BasicBlock)} (ho : st.structs.Ordered)
    (hm : ∀ {st st' blocks}, st.structs.Ordered → Run m st blocks st' →
      Lowers t instrs ops st.toExprState blocks st'.toExprState)
    (hr : Run (withLoopTargets breakId contId m) st blocks st') :
    Lowers t instrs ops st.toExprState blocks st'.toExprState := by
  obtain ⟨_, _, he, hr, he'⟩ := withLoopTargets_exprs hr
  exact he ▸ he' ▸ hm (he ▸ ho) hr

omit hl in
theorem withVarScope_lowers {m : CompileM (List BasicBlock)} (ho : st.structs.Ordered)
    (hm : ∀ {st st' blocks}, st.structs.Ordered → Run m st blocks st' →
      Lowers t instrs ops st.toExprState blocks st'.toExprState)
    (hr : Run (withVarScope m) st blocks st') : Lowers t instrs ops st.toExprState blocks st'.toExprState := by
  obtain ⟨_, h, rfl⟩ := run_within_iff.mp hr
  have ho : ({ st with vars := scopeMapEnter st.vars } : CompileState).structs.Ordered := ho
  exact (hm ho h).scope

include hl hx

theorem lowerSwitch_lowers (ho : st.structs.Ordered)
    (hr : Run (lowerSwitch ex lower dispatchId restId valueOp body) st blocks st') :
    Lowers t [] [valueOp] st.toExprState blocks st'.toExprState := by
  simp only [lowerSwitch, run_bind_iff, run_pure_iff] at hr
  obtain ⟨_, _, hf, _, _, hd, _, _, hc, rfl, rfl⟩ := hr
  obtain ⟨_, _, he, hc, he'⟩ := withBreakTarget_exprs hc
  have hs := freshBlocks_exprs hf
  have h := lowerSwitchDispatch_lowers hx (hs ▸ ho) hd
  have h' := lowerSwitchClauses_lowers hl (he ▸ h.ordered) hc
  rw [he, he'] at h'
  exact hs ▸ h.append h'.widen

theorem lowerForLoop_lowers {cond step : Option Expr} (ho : st.structs.Ordered)
    (hr : Run (lowerForLoop ex lower bid instrs init cond step body restId) st blocks st') :
    Lowers t instrs [] st.toExprState blocks st'.toExprState := by
  cases lowerForLoop_cases hr
  case mk initInstrs stepInstrs condId bodyId stepId hi hc hb hs hcs hss hbs =>
    have he := (freshBlock_exprs hs).trans <| (freshBlock_exprs hb).trans <| freshBlock_exprs hc
    have h₁ := lowerForInit_produces hx ho <| run_onExprs_of hi
    have h₂ := lowerLoopConditionBlocks_lowers hx (he ▸ h₁.ordered) hcs
    have h₃ := stepExpr_produces hx h₂.ordered <| run_onExprs_of hss
    have h₄ : Lowers t [] [] _ _ _ := withLoopTargets_lowers h₃.ordered hl hbs
    have hb : Lowers t instrs [] st.toExprState [⟨bid, instrs ++ initInstrs, .jump condId⟩] _ :=
      .block h₁ <| List.nil_subset _
    have hs : Lowers t [] [] _ [⟨stepId, [] ++ stepInstrs, .jump condId⟩] _ :=
      .block h₃ <| List.nil_subset _
    exact hb.append (he ▸ h₂) |>.append hs |>.append h₄ |>.perm perm_swap

theorem StepRun.lowers (h : StepRun ex lower bid instrs term stmts st blocks st') (ho : st.structs.Ordered) :
    Lowers t instrs term.operands st.toExprState blocks st'.toExprState := by
  cases h
  case nil => exact .last ho (.refl _)
  case returnNone ht =>
    exact (Lowers.last ho <| List.nil_subset _).append <| lowerUnreachableLabels_lowers hl ho ht
  case returnSome hc he ht =>
    have h := hx.lowerExpr ho <| run_onExprs_of he
    have h := coerceReturnOperand_produces hx h <| run_onExprs_of hc
    have ht := lowerUnreachableLabels_lowers hl h.ordered ht
    rw [List.append_assoc]
    exact (Lowers.block h <| List.subset_append_right _ _).append ht
  case lastBlock hr => exact withVarScope_lowers ho hl hr
  case block hb hf hr =>
    have he := freshBlock_exprs hf
    have h := withVarScope_lowers (he ▸ ho) hl hb
    exact he ▸ h.widen.append (hl h.ordered hr)
  case straight hs hr hb =>
    have h := straightInstrs_produces hx hs ho <| run_onExprs_of hr
    exact .after h <| (hl h.ordered hb).mono <| List.subset_append_left _ _
  case whileLoop hb hi hcs hbs hc hr =>
    have he := (freshBlock_exprs hi).trans <| (freshBlock_exprs hb).trans <| freshBlock_exprs hc
    have h₁ := lowerConditionBlock_lowers hx (he ▸ ho) hcs
    have h₂ := withLoopTargets_lowers h₁.ordered hl hbs
    have h₃ := hl h₂.ordered hr
    exact (Lowers.jump ho).append (he ▸ h₁.widen) |>.append h₂.widen |>.append h₃
  case doWhile bodyId _ _ hc hi hcs hbs hb hr =>
    have he := (freshBlock_exprs hi).trans <| (freshBlock_exprs hc).trans <| freshBlock_exprs hb
    have h₁ := lowerConditionBlock_lowers hx (he ▸ ho) hcs
    have h₂ := withLoopTargets_lowers h₁.ordered hl hbs
    have h₃ := hl h₂.ordered hr
    have h : Lowers t instrs term.operands st.toExprState [⟨bid, instrs, .jump bodyId⟩] _ := .jump ho
    exact h.append (he ▸ h₁.widen) |>.append h₂.widen |>.append h₃ |>.perm <| perm_swap.append_right _
  case forDecls hb hf hr =>
    have he := freshBlock_exprs hf
    have h := withVarScope_lowers (he ▸ ho) (lowerForLoop_lowers hx hl) hb
    exact he ▸ h.widen.append (hl h.ordered hr)
  case forLoop hb hf hr =>
    have he := freshBlock_exprs hf
    have h := lowerForLoop_lowers hx hl (he ▸ ho) hb
    exact he ▸ h.widen.append (hl h.ordered hr)
  case switch hd hi hs hv hr =>
    have h₁ := hx.lowerExpr ho <| run_onExprs_of hv
    have he := (freshBlock_exprs hi).trans <| freshBlock_exprs hd
    have h₂ := lowerSwitch_lowers hx hl (he ▸ h₁.ordered) hs
    have h₃ := hl h₂.ordered hr
    rw [he] at h₂
    refine .after h₁ <| (Lowers.jump h₁.ordered).append (h₂.mono ?_) |>.append (h₃.mono ?_)
    · exact List.subset_append_right _ _
    · exact List.subset_append_left _ _
  case goto hb ht =>
    have he := labelBlock_exprs hb
    exact (Lowers.jump ho).append <| he ▸ lowerUnreachableLabels_lowers hl (he ▸ ho) ht
  case label hb hr =>
    have he := labelBlock_exprs hb
    exact (Lowers.jump ho).append <| he ▸ hl (he ▸ ho) hr
  case ite hn hi hys hns hy hcs =>
    have he := (freshBlock_exprs hn).trans <| freshBlock_exprs hy
    have h₁ := lowerIfRestTarget_lowers hl (he ▸ ho) hi
    have h₂ := hl h₁.ordered hys
    have h₃ := lowerIfNoBlocks_lowers hl h₂.ordered hns
    have h₄ := lowerConditionBlock_lowers hx h₃.ordered hcs
    have h := h₁.append h₂.widen |>.append h₃.widen |>.prepend h₄.widen
    refine he ▸ h.perm ?_
    classical
    simp only [List.perm_iff_count, List.count_append]
    omega
  case breaks ht    => exact (Lowers.jump ho).append <| lowerUnreachableLabels_lowers hl ho ht
  case continues ht => exact (Lowers.jump ho).append <| lowerUnreachableLabels_lowers hl ho ht

end Statements

theorem lowerStatementsFrom_lowers {ex : ExprLowering} (hx : ex.AllProduce t) {st st' : CompileState}
    (ho : st.structs.Ordered) (hr : Run (lowerStatementsFrom ex fuel bid instrs stmts term) st blocks st') :
    Lowers t instrs term.operands st.toExprState blocks st'.toExprState := by
  induction fuel generalizing bid instrs stmts term st blocks st'
  case zero    => exact absurd hr not_run_outOfFuel
  case succ hi => exact (lowerStatementsFrom.step_cases hr).lowers hx hi ho

end Hcc
