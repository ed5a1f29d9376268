import Hcc.Lower.Theorems.Binds
import Hcc.Lower.Theorems.Closure

open Stateful

namespace Hcc

section Names

variable {stmt : Stmt} {stmts rest : List Stmt} {mode : Mode}

theorem binds_live_cons :
    binds sw .live (stmt :: rest) = liveBinds stmt ++ binds sw (Mode.live.next sw stmt) rest := by
  rw [binds]

theorem binds_skipped_cons :
    binds sw .skipped (stmt :: rest) = binds sw (Mode.skipped.next sw stmt) rest := by
  rw [binds, List.nil_append]

theorem binds_dropped : binds false .dropped stmts = [] := by
  induction stmts
  case nil            => rfl
  case cons stmt _ hi => cases stmt <;> simp [binds, Mode.next, hi]

theorem binds_straight (h : straightInstrs ex stmt = some action) :
    binds false .live (stmt :: rest) = liveBinds stmt ++ binds false .live rest := by
  cases stmt <;> simp_all [binds_live_cons, Mode.next, straightInstrs]

def clauseBinds (clauses : List SwitchClause) : List String :=
  clauses.flatMap (binds false .live ·.body)

-- The names that are bound by the body of a switch are those of its clauses.
theorem binds_switch (h : mode ≠ .body) :
    binds true mode stmts = binds false mode (splitClauses stmts).1 ++ clauseBinds (splitClauses stmts).2 := by
  fun_induction splitClauses generalizing mode
  case case1 => simp [binds, clauseBinds]
  case case2 hi =>
    have hi := @hi .live (by simp)
    cases mode
    case body => contradiction
    all_goals simp [binds, Mode.next, liveBinds, clauseBinds, hi]
  case case3 hi =>
    have hi := @hi .live (by simp)
    cases mode
    case body => contradiction
    all_goals simp [binds, Mode.next, liveBinds, clauseBinds, hi]
  case case4 stmt _ hc hd hi =>
    have hi := hi <| Mode.next_ne_body true stmt h
    rw [Mode.next_eq hc hd] at hi
    cases mode
    case body => contradiction
    all_goals simp [binds, Mode.next_eq hc hd, hi]

theorem binds_body : binds true .body stmts = binds true .dropped (switchBodyStatements stmts) := by
  unfold switchBodyStatements
  split
  case h_1 => simp [binds, bodyBinds]
  case h_2 hb =>
    rcases stmts with _ | ⟨stmt, _ | ⟨_, _⟩⟩
    · rfl
    · cases stmt <;> simp_all [binds, bodyBinds]
    · simp [binds, Mode.next_body]

theorem binds_switch_body :
    binds true .body stmts = clauseBinds (collectSwitchClauses <| switchBodyStatements stmts) := by
  have hm : Mode.dropped ≠ .body := nofun
  rw [binds_body, binds_switch hm, binds_dropped, collectSwitchClauses_eq, List.nil_append]

end Names

-- The variables `names` are bound, and the targets of jumps are kept.
structure CompileState.Binds (names : List String) (st st' : CompileState) : Prop where
  exprs           : ExprState.Binds names st.toExprState st'.toExprState
  breakTargets    : st'.breakTargets = st.breakTargets
  continueTargets : st'.continueTargets = st.continueTargets

variable {st st₁ st₂ : CompileState} {names names₁ names₂ : List String}

namespace CompileState.Binds

theorem refl : st.Binds [] st :=
  ⟨.refl, rfl, rfl⟩

theorem trans (h₁ : st.Binds names₁ st₁) (h₂ : st₁.Binds names₂ st₂) :
    st.Binds (names₁ ++ names₂) st₂ :=
  ⟨h₁.exprs.trans h₂.exprs, h₂.breakTargets.trans h₁.breakTargets,
    h₂.continueTargets.trans h₁.continueTargets⟩

theorem perm (h : st.Binds names₁ st₁) (hp : names₁.Perm names₂) : st.Binds names₂ st₁ :=
  ⟨h.exprs.perm hp, h.breakTargets, h.continueTargets⟩

theorem onExprs {m : ExprM α} (hm : Declares names m) (hr : Run (onExprs m) st a st₁) :
    st.Binds names st₁ := by
  obtain ⟨ex, he, rfl⟩ := run_within_iff.mp hr
  exact ⟨hm he, rfl, rfl⟩

theorem freshBlock (hr : Run freshBlock st b st₁) : st.Binds [] st₁ := by
  simp only [Hcc.freshBlock, run_bind_iff, run_get_iff, run_pure_iff, run_set_iff] at hr
  obtain ⟨_, _, ⟨rfl, rfl⟩, _, _, rfl, rfl, rfl⟩ := hr
  exact ⟨⟨rfl, le_rfl, [], .rfl, by simp, rfl⟩, rfl, rfl⟩

theorem labelBlock (hr : Run (labelBlock name) st b st₁) : st.Binds [] st₁ := by
  simp only [Hcc.labelBlock, run_bind_iff, run_get_iff] at hr
  obtain ⟨_, _, ⟨rfl, rfl⟩, hr⟩ := hr
  split at hr
  case h_1 => exact (run_pure_iff.mp hr).right ▸ refl
  case h_2 =>
    simp only [run_bind_iff, run_set_iff, run_pure_iff] at hr
    obtain ⟨_, _, rfl, rfl, rfl⟩ := hr
    exact ⟨⟨rfl, le_rfl, [], .rfl, by simp, rfl⟩, rfl, rfl⟩

theorem withVarScope {m : CompileM α} (hm : ∀ {st st'}, Run m st a st' → st.Binds names st')
    (hr : Run (withVarScope m) st a st₁) : st.Binds [] st₁ := by
  obtain ⟨t, ht, rfl⟩ := run_within_iff.mp hr
  have h := hm ht
  exact ⟨h.exprs.leave, h.breakTargets, h.continueTargets⟩

theorem withLoopTargets {m : CompileM α} (hm : ∀ {st st'}, Run m st a st' → st.Binds names st')
    (hr : Run (withLoopTargets restId contId m) st a st₁) : st.Binds names st₁ := by
  obtain ⟨t, ht, rfl⟩ := run_within_iff.mp hr
  exact ⟨(hm ht).exprs, rfl, rfl⟩

theorem withBreakTarget {m : CompileM α} (hm : ∀ {st st'}, Run m st a st' → st.Binds names st')
    (hr : Run (withBreakTarget restId m) st a st₁) : st.Binds names st₁ := by
  obtain ⟨t, ht, rfl⟩ := run_within_iff.mp hr
  have h := hm ht
  exact ⟨h.exprs, rfl, h.continueTargets⟩

end CompileState.Binds

section Expressions

theorem currentReturnType_declares : Declares [] currentReturnType := by
  refine .bind .get fun st => ?_
  split
  case h_1 => exact .pure
  case h_2 => split <;> exact .pure

variable {ex : ExprLowering} (hx : ex.Scoped)

include hx

theorem lowerDecls_declares (decls : List Decl) :
    Declares (decls.map (·.name)) (lowerDecls ex decls) := by
  have h := Declares.mapM (fun decl : Decl => hx.lowerDecl decl.type decl.name decl.init) decls
  exact List.append_nil (decls.map (·.name)) ▸ h.bind fun _ => .pure

theorem coerceReturnOperand_declares (op) : Declares [] (coerceReturnOperand ex op) := by
  refine .bind currentReturnType_declares fun type => ?_
  split
  case h_1 => exact .pure
  case h_2 => exact hx.coerceScalar _ _
  case h_3 => exact .pure

omit hx in
theorem defaultReturnTerm_binds (hr : Run defaultReturnTerm st term st₁) : st.Binds [] st₁ := by
  simp only [defaultReturnTerm, run_bind_iff] at hr
  obtain ⟨_, _, he, hr⟩ := hr
  have hb := CompileState.Binds.onExprs currentReturnType_declares he
  split at hr <;> exact (run_pure_iff.mp hr).right ▸ hb

theorem straightInstrs_declares {stmt : Stmt} (hs : straightInstrs ex stmt = some action) :
    Declares (liveBinds stmt) action := by
  cases stmt <;> simp only [straightInstrs, Option.some.injEq, reduceCtorEq] at hs <;> subst hs
  case sDecl decl   => exact hx.lowerDecl decl.type decl.name decl.init
  case sDecls decls => exact lowerDecls_declares hx decls
  case sTypedef     => exact .pure
  case sExpr expr   => exact hx.lowerSideEffect expr

theorem CondRun.binds {cond : Expr}
    (hr : CondRun ex bid instrs cond trueId falseId st B st₁) : st.Binds [] st₁ := by
  induction hr
  case value he       => exact .onExprs (hx.lowerExpr _) he
  case compare he     => exact .onExprs (hx.lowerBranchComparison ..) he
  case and hf _ _ hl hr => exact (CompileState.Binds.freshBlock hf).trans <| hl.trans hr
  case or hf _ _ hl hr  => exact (CompileState.Binds.freshBlock hf).trans <| hl.trans hr
  case not hi         => exact hi

theorem lowerLoopConditionBlocks_binds {cond : Option Expr}
    (hr : Run (lowerLoopConditionBlocks ex cond condId bodyId restId) st B st₁) : st.Binds [] st₁ := by
  unfold lowerLoopConditionBlocks at hr
  split at hr
  case h_1 => exact (run_pure_iff.mp hr).right ▸ .refl
  case h_2 => exact (lowerConditionBlock_cases hr).binds hx

end Expressions

section Statements

variable {ex : ExprLowering}
variable {lower : BlockId → List Instr → List Stmt → Terminator → CompileM (List BasicBlock)}

-- The specification of the names that are bound by a list of statements.
def StatementsBind
    (lower : BlockId → List Instr → List Stmt → Terminator → CompileM (List BasicBlock)) : Prop :=
  ∀ ⦃bid instrs stmts term st B st'⦄, Run (lower bid instrs stmts term) st B st' →
    st.Binds (binds false .live stmts) st'

variable (hl : StatementsBind lower)

include hl in
theorem lowerUnreachableLabels_binds (hr : Run (lowerUnreachableLabels lower stmts term) st B st₁) :
    st.Binds (binds false .skipped stmts) st₁ := by
  fun_induction lowerUnreachableLabels lower stmts term
  case case1 => exact (run_pure_iff.mp hr).right ▸ .refl
  case case2 =>
    obtain ⟨_, _, hb, hr⟩ := run_bind_iff.mp hr
    rw [binds_skipped_cons]
    exact (CompileState.Binds.labelBlock hb).trans <| hl hr
  case case3 stmt rest hn hi =>
    have hm : Mode.skipped.next false stmt = .skipped := by
      cases stmt <;> first | rfl | exact absurd rfl <| hn _
    rw [binds_skipped_cons, hm]
    exact hi hr

include hl in
theorem lowerIfRestTarget_binds (hr : Run (lowerIfRestTarget lower rest term) st (restId, B) st₁) :
    st.Binds (binds false .live rest) st₁ := by
  unfold lowerIfRestTarget at hr
  split at hr
  case h_1 => exact (run_pure_iff.mp hr).right ▸ .refl
  case h_2 =>
    simp only [lowerIfJoinTarget, run_bind_iff, run_pure_iff] at hr
    obtain ⟨_, _, hf, _, _, hs, _, rfl⟩ := hr
    exact (CompileState.Binds.freshBlock hf).trans <| hl hs

include hl in
theorem lowerIfNoBlocks_binds (hr : Run (lowerIfNoBlocks lower no noId restId) st B st₁) :
    st.Binds (binds false .live no) st₁ := by
  unfold lowerIfNoBlocks at hr
  split at hr
  case h_1 => exact (run_pure_iff.mp hr).right ▸ .refl
  case h_2 => exact hl hr

theorem lowerSwitchDispatch_binds (hx : ex.Scoped)
    (hr : Run (lowerSwitchDispatch ex bid valueOp defaultTarget cases) st B st₁) :
    st.Binds [] st₁ := by
  fun_induction lowerSwitchDispatch generalizing st B st₁
  case case1 => exact (run_pure_iff.mp hr).right ▸ .refl
  case case2 =>
    simp only [run_bind_iff, run_pure_iff] at hr
    obtain ⟨⟨_, _⟩, _, he, _, rfl⟩ := hr
    exact .onExprs (hx.lowerExpr _) he
  case case3 hi =>
    simp only [run_bind_iff, run_pure_iff] at hr
    obtain ⟨_, _, hf, ⟨_, _⟩, _, he, _, _, hs, _, rfl⟩ := hr
    exact (CompileState.Binds.freshBlock hf).trans <| .trans (.onExprs (hx.lowerExpr _) he) <| hi _ hs

theorem freshBlocks_binds (hr : Run (freshBlocks n) st ids st₁) : st.Binds [] st₁ ∧ ids.length = n := by
  induction n generalizing st ids
  case zero    =>
    obtain ⟨rfl, rfl⟩ := run_pure_iff.mp hr
    exact ⟨.refl, rfl⟩
  case succ hi =>
    simp only [freshBlocks, run_bind_iff, run_pure_iff] at hr
    obtain ⟨_, _, hf, _, _, hr, rfl, rfl⟩ := hr
    obtain ⟨hb, hn⟩ := hi hr
    exact ⟨(CompileState.Binds.freshBlock hf).trans hb, congrArg Nat.succ hn⟩

include hl in
theorem lowerSwitchClauses_binds {clauses : List (SwitchClause × BlockId)}
    (hr : Run (lowerSwitchClauses lower restId clauses) st B st₁) :
    st.Binds (clauseBinds <| clauses.map Prod.fst) st₁ := by
  induction clauses generalizing st B
  case nil => exact (run_pure_iff.mp hr).right ▸ .refl
  case cons hi =>
    simp only [lowerSwitchClauses, run_bind_iff, run_pure_iff] at hr
    obtain ⟨_, _, hb, _, _, hr, _, rfl⟩ := hr
    exact (hl hb).trans <| hi hr

include hl in
theorem lowerSwitch_binds (hx : ex.Scoped)
    (hr : Run (lowerSwitch ex lower dispatchId restId valueOp body) st B st₁) :
    st.Binds (binds true .body body) st₁ := by
  simp only [lowerSwitch, run_bind_iff, run_pure_iff] at hr
  obtain ⟨ids, _, hf, _, _, hd, _, _, hb, _, rfl⟩ := hr
  obtain ⟨hf, hn⟩ := freshBlocks_binds hf
  have hc := CompileState.Binds.withBreakTarget (lowerSwitchClauses_binds hl) hb
  rw [List.map_fst_zip hn.ge] at hc
  rw [binds_switch_body]
  exact hf.trans <| (lowerSwitchDispatch_binds hx hd).trans hc

def initBinds : ForInit → List String
  | .decls decls => decls.map (·.name)
  | _            => []

theorem liveBinds_for {cond step : Option Expr} (h : ∀ decls, init ≠ .decls decls) :
    liveBinds (.sFor init cond step body) = initBinds init ++ binds false .live body := by
  cases init
  case decls => exact absurd rfl <| h _
  all_goals rfl

theorem lowerForInit_declares (hx : ex.Scoped) (init) :
    Declares (initBinds init) (lowerForInit ex init) := by
  cases init
  case noInit => exact .pure
  case expr   => exact hx.lowerSideEffect _
  case decls  => exact lowerDecls_declares hx _

theorem stepInstrs_declares (hx : ex.Scoped) (step : Option Expr) :
    Declares [] (step.elim (pure []) ex.lowerSideEffect) := by
  cases step
  case none => exact .pure
  case some => exact hx.lowerSideEffect _

include hl in
theorem ForRun.binds (hx : ex.Scoped) {cond : Option Expr}
    (hr : ForRun ex lower bid instrs init cond step body restId st B st₁) :
    st.Binds (initBinds init ++ Hcc.binds false .live body) st₁ := by
  cases hr
  case mk hi hc hb hs hcs hss hbs =>
    have hi := CompileState.Binds.onExprs (lowerForInit_declares hx init) hi
    have hc := CompileState.Binds.freshBlock hc
    have hb := CompileState.Binds.freshBlock hb
    have hs := CompileState.Binds.freshBlock hs
    have hcs := lowerLoopConditionBlocks_binds hx hcs
    have hss := CompileState.Binds.onExprs (stepInstrs_declares hx step) hss
    have hbs := CompileState.Binds.withLoopTargets (fun hr => hl hr) hbs
    exact hi.trans <| hc.trans <| hb.trans <| hs.trans <| hcs.trans <| hss.trans hbs

include hl in
theorem StepRun.binds (hx : ex.Scoped) (hr : StepRun ex lower bid instrs term stmts st B st₁) :
    st.Binds (Hcc.binds false .live stmts) st₁ := by
  cases hr
  case nil           => exact .refl
  case returnNone ht => exact lowerUnreachableLabels_binds hl ht
  case returnSome hc he ht =>
    have he := CompileState.Binds.onExprs (hx.lowerExpr _) he
    have hc := CompileState.Binds.onExprs (coerceReturnOperand_declares hx _) hc
    exact he.trans <| hc.trans <| lowerUnreachableLabels_binds hl ht
  case lastBlock hr =>
    exact .withVarScope (fun hr => hl hr) hr
  case block hb hi hs =>
    have hb := CompileState.Binds.withVarScope (fun hr => hl hr) hb
    exact (CompileState.Binds.freshBlock hi).trans <| hb.trans <| hl hs
  case straight hs hi hr =>
    have hi := CompileState.Binds.onExprs (straightInstrs_declares hx hs) hi
    exact binds_straight hs ▸ hi.trans <| hl hr
  case whileLoop hb hi hcs hbs hc hs =>
    have hcs := (lowerConditionBlock_cases hcs).binds hx
    have hbs := CompileState.Binds.withLoopTargets (fun hr => hl hr) hbs
    have hf := (CompileState.Binds.freshBlock hc).trans <| (CompileState.Binds.freshBlock hb).trans <|
      CompileState.Binds.freshBlock hi
    exact hf.trans <| hcs.trans <| hbs.trans <| hl hs
  case doWhile hc hi hcs hbs hb hs =>
    have hcs := (lowerConditionBlock_cases hcs).binds hx
    have hbs := CompileState.Binds.withLoopTargets (fun hr => hl hr) hbs
    have hf := (CompileState.Binds.freshBlock hb).trans <| (CompileState.Binds.freshBlock hc).trans <|
      CompileState.Binds.freshBlock hi
    exact hf.trans <| hcs.trans <| hbs.trans <| hl hs
  case forDecls hf hi hs =>
    have hf := CompileState.Binds.withVarScope (fun hr => (lowerForLoop_cases hr).binds hl hx) hf
    exact (CompileState.Binds.freshBlock hi).trans <| hf.trans <| hl hs
  case forLoop restId hn hf hi hs =>
    have hf := (lowerForLoop_cases hf).binds hl hx
    rw [←liveBinds_for hn] at hf
    exact (CompileState.Binds.freshBlock hi).trans <| hf.trans <| hl hs
  case switch hd hi hb he hs =>
    have he := CompileState.Binds.onExprs (hx.lowerExpr _) he
    have hb := lowerSwitch_binds hl hx hb
    have hf := (CompileState.Binds.freshBlock hd).trans <| CompileState.Binds.freshBlock hi
    exact he.trans <| hf.trans <| hb.trans <| hl hs
  case goto hb ht =>
    exact (CompileState.Binds.labelBlock hb).trans <| lowerUnreachableLabels_binds hl ht
  case label hb hs =>
    exact (CompileState.Binds.labelBlock hb).trans <| hl hs
  case ite hn hr hys hns hy hcs =>
    have hr := lowerIfRestTarget_binds hl hr
    have hns := lowerIfNoBlocks_binds hl hns
    have hcs := (lowerConditionBlock_cases hcs).binds hx
    have hf := (CompileState.Binds.freshBlock hy).trans <| CompileState.Binds.freshBlock hn
    refine (hf.trans <| hr.trans <| (hl hys).trans <| hns.trans hcs).perm ?_
    -- The statements after the conditional are lowered before its branches.
    simpa [binds_live_cons, liveBinds, Mode.next] using
      List.perm_append_comm.trans <| .of_eq <| by rw [List.append_assoc]
  case breaks hb    => exact lowerUnreachableLabels_binds hl hb
  case continues hb => exact lowerUnreachableLabels_binds hl hb

theorem lowerStatementsFrom_binds (hx : ex.Scoped) : StatementsBind (lowerStatementsFrom ex fuel) := by
  induction fuel
  case zero      => exact fun _ _ _ _ _ _ _ hr => absurd hr not_run_outOfFuel
  case succ _ hi => exact fun _ _ _ _ _ _ _ hr => (lowerStatementsFrom.step_cases hr).binds hi hx

theorem binds_singleton (stmt : Stmt) : binds false .live [stmt] = liveBinds stmt := by
  rw [binds_live_cons, binds, List.append_nil]

-- The statements after a statement with a body are lowered after the body, or before it.
theorem StepRun.rest {stmt : Stmt} {rest : List Stmt} (hl : StatementsBind lower) (hx : ex.Scoped)
    (hr : StepRun ex lower bid instrs term (stmt :: rest) st B st₁) :
    stmt.isCompound → rest ≠ [] → ∃ restId t restBlocks t', Run (lower restId [] rest term) t restBlocks t' ∧ restBlocks <:+: B ∧
      (st.Binds [] t ∨ st.Binds (liveBinds stmt) t) := by
  cases hr <;> intro hp hne
  case lastBlock => exact absurd rfl hne
  case block hb _ hi hs =>
    have hb := CompileState.Binds.withVarScope (fun hr => hl hr) hb
    refine ⟨_, _, _, _, hs, (List.suffix_append ..).isInfix, .inl ?_⟩
    exact (CompileState.Binds.freshBlock hi).trans hb
  case straight hs _ _ => cases stmt <;> simp_all [straightInstrs, Stmt.isCompound]
  case whileLoop hb hi hcs hbs hc hs =>
    have hcs := (lowerConditionBlock_cases hcs).binds hx
    have hbs := CompileState.Binds.withLoopTargets (fun hr => hl hr) hbs
    have hf := (CompileState.Binds.freshBlock hc).trans <| (CompileState.Binds.freshBlock hb).trans <|
      CompileState.Binds.freshBlock hi
    exact ⟨_, _, _, _, hs, (List.suffix_append ..).isInfix, .inr <| hf.trans <| hcs.trans hbs⟩
  case doWhile hc hi hcs hbs hb hs =>
    have hcs := (lowerConditionBlock_cases hcs).binds hx
    have hbs := CompileState.Binds.withLoopTargets (fun hr => hl hr) hbs
    have hf := (CompileState.Binds.freshBlock hb).trans <| (CompileState.Binds.freshBlock hc).trans <|
      CompileState.Binds.freshBlock hi
    exact ⟨_, _, _, _, hs, (List.suffix_append ..).isInfix, .inr <| hf.trans <| hcs.trans hbs⟩
  case forDecls hf hi hs =>
    have hf := CompileState.Binds.withVarScope (fun hr => (lowerForLoop_cases hr).binds hl hx) hf
    refine ⟨_, _, _, _, hs, (List.suffix_append ..).isInfix, .inl ?_⟩
    exact (CompileState.Binds.freshBlock hi).trans hf
  case forLoop restId hn hf hi hs =>
    have hf := (lowerForLoop_cases hf).binds hl hx
    rw [←liveBinds_for hn] at hf
    have hf : CompileState.Binds ([] ++ liveBinds _) _ _ := (CompileState.Binds.freshBlock hi).trans hf
    exact ⟨_, _, _, _, hs, (List.suffix_append ..).isInfix, .inr hf⟩
  case switch hd hi hb he hs =>
    have he := CompileState.Binds.onExprs (hx.lowerExpr _) he
    have hb := lowerSwitch_binds hl hx hb
    have hf := (CompileState.Binds.freshBlock hd).trans <| CompileState.Binds.freshBlock hi
    exact ⟨_, _, _, _, hs, (List.suffix_append ..).isInfix, .inr <| he.trans <| hf.trans hb⟩
  case ite hf _ _ hr hy _ =>
    simp only [lowerIfRestTarget, lowerIfJoinTarget] at hr
    split at hr
    case h_1 => exact absurd rfl hne
    case h_2 =>
      simp only [run_bind_iff, run_pure_iff] at hr
      obtain ⟨_, _, hi, _, _, hs, he, _⟩ := hr
      have hf := (CompileState.Binds.freshBlock hy).trans <| CompileState.Binds.freshBlock hf
      refine ⟨_, _, _, _, hs, ?_, .inl <| hf.trans <| CompileState.Binds.freshBlock hi⟩
      exact (Prod.mk.inj he).right ▸ (List.suffix_append ..).isInfix
  all_goals simp [Stmt.isCompound] at hp

theorem CompileState.Binds.same (h : st.Binds [] st₁) : SameScope st st₁ :=
  ⟨fun _ => by rw [h.exprs.vars_eq], h.breakTargets, h.continueTargets⟩

theorem CompileState.Binds.same_iff (h : st.Binds names st₁) (hf : st.Fresh) :
    SameScope st st₁ ↔ names = [] :=
  ⟨fun hs => h.exprs.same_iff hf |>.mp hs.vars, fun hn => same <| hn ▸ h⟩

-- The states in which the statements of a function are lowered are fresh.
theorem lowerParams_declares (params : List Param) :
    Declares (params.map (·.name)) (lowerParams index params) := by
  induction params generalizing index
  case nil     => exact .pure
  case cons hi =>
    exact .bindFresh fun _ => List.append_nil (List.map ..) ▸ hi.bind fun _ => .pure

theorem lowerFunctionBody_fresh (hx : ex.Scoped) (hv : st.vars = scopeMapEmpty)
    (hr : Run (lowerFunctionBody ex fuel name params body) st fn st₁) : st₁.Fresh := by
  have hf : st.Fresh := by
    refine ⟨fun scope hs => ?_, fun scope hs => ?_⟩ <;>
      (rw [hv] at hs; obtain rfl := List.mem_singleton.mp hs)
    · exact SymbolMap.ordered_empty
    · exact SymbolMap.all_empty
  simp only [lowerFunctionBody, run_bind_iff, run_pure_iff] at hr
  obtain ⟨_, _, hb, _, _, hp, _, _, hd, _, _, hs, _, rfl⟩ := hr
  have hd : CompileState.Binds [] _ _ := defaultReturnTerm_binds hd
  have hp := CompileState.Binds.onExprs (lowerParams_declares params) hp
  have hb := (CompileState.Binds.freshBlock hb).trans <| hp.trans <| hd.trans <|
    lowerStatementsFrom_binds hx hs
  exact hf.binds hb.exprs

end Statements

section Claim

variable {n fuel : Nat}

-- A statement keeps the scope, if and only if it does not bind any variables outside of a scope of its own.
-- The statements that follow a body are then lowered in the same scope, too.
theorem lowerStatementsFrom_scope (stmt : Stmt) :
    (∀ bid instrs term st B st',
      Run (lowerStatementsFrom (exprLowering n) fuel bid instrs [stmt] term) st B st' →
        (liveBinds stmt = [] → SameScope st st') ∧
        (st.Fresh → (SameScope st st' ↔ liveBinds stmt = []))) ∧
    (∀ rest bid instrs term st B st', stmt.isCompound → rest ≠ [] → liveBinds stmt = [] →
      Run (lowerStatementsFrom (exprLowering n) (fuel + 1) bid instrs (stmt :: rest) term) st B st' →
        ∃ restId t restBlocks t',
          Run (lowerStatementsFrom (exprLowering n) fuel restId [] rest term) t restBlocks t' ∧
          restBlocks <:+: B ∧ SameScope st t) := by
  have hx := exprLowering_scoped n
  constructor
  case left =>
    intro bid instrs term st B st' hr
    have h := binds_singleton stmt ▸ lowerStatementsFrom_binds hx hr
    exact ⟨fun hn => (hn ▸ h).same, h.same_iff⟩
  case right =>
    intro rest bid instrs term st B st' hc hn he hr
    have ⟨restId, t, restBlocks, t', hr, hi, ht⟩ :=
      (lowerStatementsFrom.step_cases hr).rest (lowerStatementsFrom_binds hx) hx hc hn
    rw [he, or_self] at ht
    exact ⟨restId, t, restBlocks, t', hr, hi, ht.same⟩

-- { int x; }
def bracedDeclaration : Stmt :=
  .sBlock [.sDecl ⟨.int, "x", none⟩]

theorem lowerStatementsFrom_scope_braced : ∃ B st',
    Run (lowerStatementsFrom (exprLowering 3) 4 ⟨0⟩ [] [bracedDeclaration] (.ret none)) {} B st' ∧
      SameScope {} st' := by
  refine ⟨_, _, rfl, ?_⟩
  exact (@lowerStatementsFrom_scope 3 4 bracedDeclaration).left
    ⟨0⟩ [] (.ret none) {} _ _ rfl |>.left rfl

-- switch (0) { default: ; int x; }
def leakySwitch : Stmt :=
  .sSwitch (.int ['0']) [.sBlock [.sDefault, .sDecl ⟨.int, "x", none⟩]]

-- The variable of an enclosing scope.
def outerVariable : CompileState :=
  { nextTemp := 1, vars := scopeMapInsert "x" (⟨0⟩, .int) scopeMapEmpty }

theorem outerVariable_fresh : outerVariable.Fresh := by
  constructor <;> refine List.forall_mem_cons.mpr ⟨?_, by simp [outerVariable, scopeMapInsert, scopeMapEmpty]⟩
  · exact SymbolMap.ordered_empty.insert
  · exact SymbolMap.all_empty.insert Nat.one_pos

theorem lowerStatementsFrom_leakySwitch : ∃ B st',
    Run (lowerStatementsFrom (exprLowering 3) 4 ⟨0⟩ [] [leakySwitch] (.ret none)) outerVariable B st' ∧
      ¬SameScope outerVariable st' := by
  refine ⟨_, _, rfl, ?_⟩
  have h := lowerStatementsFrom_binds (exprLowering_scoped 3) <| show Run
    (lowerStatementsFrom (exprLowering 3) 4 ⟨0⟩ [] [leakySwitch] (.ret none)) outerVariable _ _ from rfl
  rw [h.same_iff outerVariable_fresh, binds_singleton]
  exact nofun

end Claim
end Hcc
