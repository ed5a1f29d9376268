import Hcc.Lower.Theorems.Cases
import Hcc.Lower.Theorems.Clauses
import Hcc.Lower.Theorems.Emit

open Stateful

namespace Hcc

def exits (st : CompileState) (term : Terminator) : List BlockId :=
  terminatorTargets term ++ st.breakTargets.head?.toList ++ st.continueTargets.head?.toList

theorem exits_eq (h : Alloc st st' F) : exits st' term = exits st term := by
  simp [exits, h.breakTargets, h.continueTargets]

theorem exists_emit (block : BasicBlock) (h : Alloc st st' 0) :
    ∃ F, Emits st F ({block.id.index} + F) [] (terminatorTargets block.term) [block] st' :=
  ⟨0, (Emits.emit block h).congr rfl (add_zero _).symm⟩

theorem eq_or_mem_exits (h : t ∈ exits st (.jump b)) : t = b ∨ t ∈ exits st term := by
  simp only [exits, terminatorTargets, List.mem_append, List.mem_singleton] at h ⊢
  tauto

-- The blocks that are emitted for a condition.
theorem CondRun.emits {cond : Expr} (hr : CondRun ex bid instrs cond trueId falseId st B st')
    (hv : st.Valid) : ∃ F, Emits st F ({bid.index} + F) [] [trueId, falseId] B st' := by
  induction hr
  case value he   => exact exists_emit ⟨_, _, .branch ..⟩ <| Run.onExprs hv he
  case compare he => exact exists_emit ⟨_, _, .branchCmp ..⟩ <| Run.onExprs hv he
  case and hf _ _ hl hr =>
    have ⟨_, ha⟩ := Run.freshBlock hv hf
    have ⟨_, hl⟩ := hl ha.valid
    have ⟨_, hr⟩ := hr hl.alloc.valid
    have h := (Emits.of_alloc ha).append <| hl.append hr
    exact ⟨_, (h.resolve <| by simp).congr rfl (by abel)⟩
  case or hf _ _ hl hr =>
    have ⟨_, ha⟩ := Run.freshBlock hv hf
    have ⟨_, hl⟩ := hl ha.valid
    have ⟨_, hr⟩ := hr hl.alloc.valid
    have h := (Emits.of_alloc ha).append <| hl.append hr
    exact ⟨_, (h.resolve <| by simp).congr rfl (by abel)⟩
  case not hi =>
    have ⟨_, h⟩ := hi hv
    exact ⟨_, h.resolve <| by simp⟩

theorem lowerLoopConditionBlocks_emits {cond : Option Expr} (hv : st.Valid)
    (hr : Run (lowerLoopConditionBlocks ex cond condId bodyId restId) st B st') :
    ∃ F, Emits st F ({condId.index} + F) [] [bodyId, restId] B st' := by
  unfold lowerLoopConditionBlocks at hr
  split at hr
  case h_1 =>
    obtain ⟨rfl, rfl⟩ := run_pure_iff.mp hr
    have ⟨F, h⟩ := exists_emit ⟨condId, [], .jump bodyId⟩ <| .refl hv
    exact ⟨F, h.resolve <| by simp [terminatorTargets]⟩
  case h_2 => exact (lowerConditionBlock_cases hr).emits hv

section Statements

variable {ex : ExprLowering}
variable {lower : BlockId → List Instr → List Stmt → Terminator → CompileM (List BasicBlock)}

-- The specification of the blocks that are emitted for a list of statements.
def StatementsEmit
    (lower : BlockId → List Instr → List Stmt → Terminator → CompileM (List BasicBlock)) : Prop :=
  ∀ ⦃bid instrs stmts term st B st'⦄, Run (lower bid instrs stmts term) st B st' → st.Valid →
    ∃ F, Emits st F ({bid.index} + F) (marks false .live stmts) (exits st term) B st'

variable (hl : StatementsEmit lower)

theorem withVarScope_emits {bid : BlockId} {m : CompileM (List BasicBlock)} (hv : st.Valid)
    (hm : ∀ {t u}, Run m t B u → t.Valid → t.breakTargets = st.breakTargets →
      t.continueTargets = st.continueTargets → ∃ F, Emits t F ({bid.index} + F) ms xs B u)
    (hr : Run (withVarScope m) st B st') : ∃ F, Emits st F ({bid.index} + F) ms xs B st' := by
  obtain ⟨t, ht, rfl⟩ := run_within_iff.mp hr
  have ⟨F, h⟩ := hm ht (hv.congr rfl rfl) rfl rfl
  exact ⟨F, h.scope rfl rfl rfl rfl h.alloc.breakTargets h.alloc.continueTargets⟩

include hl in
theorem lower_withVarScope_emits (hv : st.Valid)
    (hr : Run (withVarScope (lower bid instrs stmts term)) st B st') :
    ∃ F, Emits st F ({bid.index} + F) (marks false .live stmts) (exits st term) B st' := by
  refine withVarScope_emits hv (fun hr hv hb hc => ?_) hr
  simpa only [exits, hb, hc] using hl hr hv

include hl in
theorem withLoopTargets_emits (hv : st.Valid)
    (hr : Run (withLoopTargets restId contId (lower bid instrs stmts term)) st B st') :
    ∃ F, Emits st F ({bid.index} + F) (marks false .live stmts)
      (terminatorTargets term ++ [restId, contId]) B st' := by
  obtain ⟨t, ht, rfl⟩ := run_within_iff.mp hr
  have ⟨F, h⟩ := hl ht (hv.congr rfl rfl)
  exact ⟨F, (h.resolve <| by simp [exits]; tauto).scope rfl rfl rfl rfl rfl rfl⟩

include hl in
theorem lowerUnreachableLabels_emits (hv : st.Valid)
    (hr : Run (lowerUnreachableLabels lower stmts term) st B st') :
    ∃ F, Emits st F F (marks false .skipped stmts) (exits st term) B st' := by
  fun_induction lowerUnreachableLabels lower stmts term
  case case1 =>
    obtain ⟨rfl, rfl⟩ := run_pure_iff.mp hr
    exact ⟨0, (Emits.of_alloc <| .refl hv).resolve (by simp)⟩
  case case2 =>
    obtain ⟨_, _, hb, hr⟩ := run_bind_iff.mp hr
    have ⟨hn, ha⟩ := Run.labelBlock hv hb
    have ⟨F, h⟩ := hl hr ha.valid
    exact ⟨F, .label ha hn (exits_eq ha ▸ h)⟩
  case case3 hn hi =>
    have ⟨F, h⟩ := hi hr
    exact ⟨F, by rwa [marks_skipped_cons_of_ne hn]⟩

include hl in
theorem lowerIfRestTarget_emits (hv : st.Valid)
    (hr : Run (lowerIfRestTarget lower rest term) st (restId, B) st') :
    ∃ F, Emits st F F (marks false .live rest) (exits st term) B st' ∧
      (restId ∈ exits st term ∨ restId.index ∈ F) := by
  unfold lowerIfRestTarget at hr
  split at hr
  case h_1 =>
    obtain ⟨h, rfl⟩ := run_pure_iff.mp hr
    obtain ⟨rfl, rfl⟩ := Prod.mk.inj h
    exact ⟨0, (Emits.of_alloc <| .refl hv).resolve (by simp), .inl <| by simp [exits, terminatorTargets]⟩
  case h_2 =>
    simp only [lowerIfJoinTarget, run_bind_iff, run_pure_iff] at hr
    obtain ⟨_, _, hf, _, _, hs, h, rfl⟩ := hr
    obtain ⟨rfl, rfl⟩ := Prod.mk.inj h
    obtain ⟨_, ha⟩ := Run.freshBlock hv hf
    obtain ⟨_, hs⟩ := hl hs ha.valid
    have h := (Emits.of_alloc ha).append <| exits_eq ha ▸ hs
    exact ⟨_, h.congr rfl (by abel), .inr <| by simp⟩

include hl in
theorem lowerIfNoBlocks_emits (hv : st.Valid)
    (hr : Run (lowerIfNoBlocks lower no noId restId) st B st') :
    ∃ F, Emits st F ((if no.isEmpty then 0 else {noId.index}) + F) (marks false .live no)
      (exits st <| .jump restId) B st' := by
  unfold lowerIfNoBlocks at hr
  split at hr
  case h_1 =>
    obtain ⟨rfl, rfl⟩ := run_pure_iff.mp hr
    exact ⟨0, (Emits.of_alloc <| .refl hv).resolve (by simp)⟩
  case h_2 hn =>
    rw [if_neg <| List.isEmpty_iff.not.mpr hn]
    exact hl hr hv

include hl in
theorem ForRun.emits {cond : Option Expr}
    (hr : ForRun ex lower bid instrs init cond step body restId st B st') (hv : st.Valid) :
    ∃ F, Emits st F ({bid.index} + F) (marks false .live body) [restId] B st' := by
  cases hr
  case mk initInstrs stepInstrs condId bodyId stepId hi hc hb hs hcs hss hbs =>
    have hi := Run.onExprs hv hi
    have ⟨_, hc⟩ := Run.freshBlock hi.valid hc
    have ⟨_, hb⟩ := Run.freshBlock hc.valid hb
    have ⟨_, hs⟩ := Run.freshBlock hb.valid hs
    have ⟨_, hcs⟩ := lowerLoopConditionBlocks_emits hs.valid hcs
    have hss := Run.onExprs hcs.alloc.valid hss
    have ⟨_, hbs⟩ := withLoopTargets_emits hl hss.valid hbs
    have h := (Emits.emit ⟨bid, instrs ++ initInstrs, .jump condId⟩ hi).append <|
      (Emits.of_alloc hc).append <| (Emits.of_alloc hb).append <| (Emits.of_alloc hs).append <|
      hcs.append <| (Emits.emit ⟨stepId, stepInstrs, .jump condId⟩ hss).append hbs
    refine ⟨_, ((h.resolve <| by simp [terminatorTargets]).perm ?_ ?_).congr rfl (by abel)⟩
    · simpa using (List.perm_append_singleton _ _).symm.append_left _
    · simp

theorem freshBlocks_alloc (hv : st.Valid) (hr : Run (freshBlocks n) st ids st') :
    Alloc st st' (ids.map (·.index) : List Nat) ∧ ids.length = n := by
  induction n generalizing st ids
  case zero =>
    obtain ⟨rfl, rfl⟩ := run_pure_iff.mp hr
    exact ⟨.refl hv, rfl⟩
  case succ hi =>
    simp only [freshBlocks, run_bind_iff, run_pure_iff] at hr
    obtain ⟨_, _, hf, _, _, hr, rfl, rfl⟩ := hr
    obtain ⟨_, ha⟩ := Run.freshBlock hv hf
    obtain ⟨hs, hl⟩ := hi ha.valid hr
    exact ⟨by simpa using ha.trans hs, by simp [hl]⟩

theorem lowerSwitchDispatch_emits (hv : st.Valid)
    (hr : Run (lowerSwitchDispatch ex bid valueOp defaultTarget cases) st B st') :
    ∃ F, Emits st F ({bid.index} + F) [] (defaultTarget :: cases.map (·.2)) B st' := by
  fun_induction lowerSwitchDispatch ex bid valueOp defaultTarget cases generalizing st B
  case case1 =>
    obtain ⟨rfl, rfl⟩ := run_pure_iff.mp hr
    exact exists_emit ⟨_, [], .jump _⟩ <| .refl hv
  case case2 bid _ target =>
    simp only [run_bind_iff, run_pure_iff] at hr
    obtain ⟨⟨caseInstrs, caseOp⟩, _, he, rfl, rfl⟩ := hr
    obtain ⟨F, h⟩ := exists_emit ⟨bid, caseInstrs, .branchCmp .eq valueOp caseOp target defaultTarget⟩ <|
      Run.onExprs hv he
    exact ⟨F, h.resolve <| by simp [terminatorTargets]⟩
  case case3 bid _ target _ _ hi =>
    simp only [run_bind_iff, run_pure_iff] at hr
    obtain ⟨nextId, _, hf, ⟨caseInstrs, caseOp⟩, _, he, _, _, hr, rfl, rfl⟩ := hr
    obtain ⟨_, ha⟩ := Run.freshBlock hv hf
    have he := Run.onExprs ha.valid he
    obtain ⟨_, hr⟩ := hi _ he.valid hr
    have h := (Emits.of_alloc ha).append <|
      (Emits.emit ⟨bid, caseInstrs, .branchCmp .eq valueOp caseOp target nextId⟩ he).append hr
    refine ⟨_, (h.resolve ?_).congr rfl (by abel)⟩
    simp [terminatorTargets]
    tauto

include hl in
theorem lowerSwitchClauses_emits (hr : Run (lowerSwitchClauses lower restId clauses) st B st')
    (hv : st.Valid) :
    ∃ F, Emits st F (((clauses.map (·.2.index) : List Nat) : Multiset Nat) + F)
      (clauseMarks <| clauses.map (·.1))
      (restId :: clauses.map (·.2) ++ exits st (.ret none)) B st' := by
  induction clauses generalizing st B
  case nil =>
    obtain ⟨rfl, rfl⟩ := run_pure_iff.mp hr
    exact ⟨0, (Emits.of_alloc <| .refl hv).resolve (by simp)⟩
  case cons clauses hi =>
    simp only [lowerSwitchClauses, run_bind_iff, run_pure_iff] at hr
    obtain ⟨_, _, hb, _, _, hr, rfl, rfl⟩ := hr
    obtain ⟨_, hb⟩ := hl hb hv
    obtain ⟨_, hr⟩ := hi hr hb.alloc.valid
    have h := hb.append hr
    refine ⟨_, ((h.resolve ?_).perm .rfl ?_).congr rfl ?_⟩
    · rw [exits_eq hb.alloc]
      cases clauses <;> simp [exits, terminatorTargets] <;> tauto
    · simp [clauseMarks]
    · rw [List.map_cons, ←Multiset.cons_coe, ←Multiset.singleton_add]
      abel

include hl in
theorem withBreakTarget_emits (hv : st.Valid)
    (hr : Run (withBreakTarget restId (lowerSwitchClauses lower restId clauses)) st B st') :
    ∃ F, Emits st F (((clauses.map (·.2.index) : List Nat) : Multiset Nat) + F)
      (clauseMarks <| clauses.map (·.1))
      (restId :: clauses.map (·.2) ++ st.continueTargets.head?.toList) B st' := by
  obtain ⟨t, ht, rfl⟩ := run_within_iff.mp hr
  have ⟨F, h⟩ := lowerSwitchClauses_emits hl ht <| hv.congr rfl rfl
  refine ⟨F, (h.resolve ?_).scope rfl rfl rfl rfl rfl h.alloc.continueTargets⟩
  simp [exits, terminatorTargets]
  tauto

theorem switchDefaultTarget_mem :
    switchDefaultTarget restId clauses ∈ restId :: clauses.map (·.2) := by
  unfold switchDefaultTarget
  split
  case h_1   => exact List.mem_cons_self
  case h_2 h => exact List.mem_cons_of_mem _ <| List.mem_map_of_mem <| List.mem_of_find?_eq_some h

theorem switchCases_subset : (switchCases clauses).map (·.2) ⊆ clauses.map (·.2) := by
  intro t ht
  simp only [switchCases, List.mem_map, List.mem_filterMap, Option.map_eq_some_iff] at ht
  obtain ⟨_, ⟨_, hc, _, _, rfl⟩, rfl⟩ := ht
  exact List.mem_map_of_mem hc

include hl in
theorem lowerSwitch_emits (hv : st.Valid)
    (hr : Run (lowerSwitch ex lower dispatchId restId valueOp body) st B st') :
    ∃ F, Emits st F ({dispatchId.index} + F) (marks true .body body)
      (restId :: st.continueTargets.head?.toList) B st' := by
  simp only [lowerSwitch, run_bind_iff, run_pure_iff] at hr
  obtain ⟨ids, _, hf, _, _, hd, _, _, hb, rfl, rfl⟩ := hr
  obtain ⟨ha, hn⟩ := freshBlocks_alloc hv hf
  obtain ⟨_, hd⟩ := lowerSwitchDispatch_emits ha.valid hd
  obtain ⟨_, hb⟩ := withBreakTarget_emits hl hd.alloc.valid hb
  have h := (Emits.of_alloc ha).append <| hd.append hb
  have hm : marks true .body body = clauseMarks (collectSwitchClauses <| switchBodyStatements body) := by
    simp [marks_body, marks_switch, collectSwitchClauses_eq, marks_dropped]
  have hc := ha.trans hd.alloc |>.continueTargets
  generalize hp : (collectSwitchClauses <| switchBodyStatements body).zip ids = clauses at *
  have h₁ : clauses.map (·.1) = collectSwitchClauses (switchBodyStatements body) :=
    hp ▸ List.map_fst_zip hn.ge
  have h₂ : clauses.map (·.2) = ids := hp ▸ List.map_snd_zip hn.le
  have hi : clauses.map (·.2.index) = ids.map (·.index) := by
    simp [←h₂]
  refine ⟨_, (h.resolve ?_ |>.perm .rfl ?_).congr rfl ?_⟩
  · intro t ht
    have hx : t ∈ restId :: ids ∨ t ∈ st.continueTargets.head?.toList := by
      have hs : switchDefaultTarget restId clauses ∈ restId :: ids := h₂ ▸ switchDefaultTarget_mem
      have hw : (switchCases clauses).map (·.2) ⊆ ids := h₂ ▸ switchCases_subset
      rw [hc, h₂] at ht
      grind
    rcases hx with hx | hx
    · rcases List.mem_cons.mp hx with rfl | hx
      · exact .inl List.mem_cons_self
      · exact .inr <| .inl <| Multiset.mem_add.mpr <| .inl <| List.mem_map_of_mem hx
    · exact .inl <| List.mem_cons_of_mem _ hx
  · exact .of_eq <| by simp [hm, h₁]
  · rw [hi]
    abel

include hl in
theorem for_emits {cond : Option Expr} {bid restId : BlockId} (hi : Alloc st st₁ {restId.index})
    (hf : Emits st₁ F ({bid.index} + F) (marks false .live body) [restId] B₁ st₂)
    (hs : Run (lower restId [] rest term) st₂ B₂ st') :
    ∃ F, Emits st F ({bid.index} + F) (marks false .live (.sFor init cond step body :: rest))
      (exits st term) (B₁ ++ B₂) st' := by
  have ⟨_, hs⟩ := hl hs hf.alloc.valid
  rw [exits_eq <| hi.trans hf.alloc] at hs
  have h := (Emits.of_alloc hi).append <| hf.append hs
  refine ⟨_, ((h.resolve ?_).perm .rfl <| .of_eq ?_).congr rfl (by abel)⟩
  · simp
    tauto
  · simp [marks_live_cons, liveMarks, Mode.next]

include hl in
theorem StepRun.emits (hr : StepRun ex lower bid instrs term stmts st B st') (hv : st.Valid) :
    ∃ F, Emits st F ({bid.index} + F) (marks false .live stmts) (exits st term) B st' := by
  cases hr
  case nil =>
    obtain ⟨F, h⟩ := exists_emit ⟨bid, instrs, term⟩ <| .refl hv
    exact ⟨F, h.resolve fun t ht => .inl <| by simp [exits, ht]⟩
  case returnNone ht =>
    obtain ⟨_, ht⟩ := lowerUnreachableLabels_emits hl hv ht
    have h := (Emits.emit ⟨bid, instrs, .ret none⟩ <| .refl hv).append ht
    exact ⟨_, h.resolve (fun _ => .inl) |>.congr (by abel) (by abel)⟩
  case returnSome retInstrs coerceInstrs retOp hc he ht =>
    have he := Run.onExprs hv he
    have hc := he.trans <| Run.onExprs he.valid hc
    obtain ⟨_, ht⟩ := lowerUnreachableLabels_emits hl hc.valid ht
    rw [exits_eq hc] at ht
    have h := (Emits.emit ⟨bid, instrs ++ retInstrs ++ coerceInstrs, .ret (some retOp)⟩ hc).append ht
    exact ⟨_, h.resolve (fun _ => .inl) |>.congr (by abel) (by abel)⟩
  case lastBlock hr =>
    obtain ⟨F, h⟩ := lower_withVarScope_emits hl hv hr
    exact ⟨F, h.perm .rfl <| .of_eq <| by simp [liveMarks, marks]⟩
  case block restId _ hb hi hs =>
    obtain ⟨_, hi⟩ := Run.freshBlock hv hi
    obtain ⟨_, hb⟩ := lower_withVarScope_emits hl hi.valid hb
    obtain ⟨_, hs⟩ := hl hs hb.alloc.valid
    rw [exits_eq <| hi.trans hb.alloc] at hs
    rw [exits, hi.breakTargets, hi.continueTargets] at hb
    have h := (Emits.of_alloc hi).append <| hb.append hs
    refine ⟨_, ((h.resolve ?_).perm .rfl <| .of_eq ?_).congr rfl (by abel)⟩
    · simp [terminatorTargets, exits]
      tauto
    · simp [marks_live_cons, liveMarks, Mode.next]
  case straight hs hi hr =>
    have hi := Run.onExprs hv hi
    obtain ⟨_, hr⟩ := hl hr hi.valid
    rw [exits_eq hi] at hr
    have h := (Emits.of_alloc hi).append hr
    exact ⟨_, (h.perm .rfl <| .of_eq <| marks_straight hs ▸ rfl).congr (zero_add _) (zero_add _)⟩
  case whileLoop condId bodyId restId hb hi hcs hbs hc hs =>
    obtain ⟨_, hc⟩ := Run.freshBlock hv hc
    obtain ⟨_, hb⟩ := Run.freshBlock hc.valid hb
    obtain ⟨_, hi⟩ := Run.freshBlock hb.valid hi
    obtain ⟨_, hcs⟩ := (lowerConditionBlock_cases hcs).emits hi.valid
    obtain ⟨_, hbs⟩ := withLoopTargets_emits hl hcs.alloc.valid hbs
    obtain ⟨_, hs⟩ := hl hs hbs.alloc.valid
    have ha := hc.trans <| hb.trans <| hi.trans <| hcs.alloc.trans hbs.alloc
    rw [exits_eq ha] at hs
    have h := (Emits.emit ⟨bid, instrs, .jump condId⟩ <| .refl hv).append <|
      (Emits.of_alloc hc).append <| (Emits.of_alloc hb).append <| (Emits.of_alloc hi).append <|
      hcs.append <| hbs.append hs
    refine ⟨_, ((h.resolve ?_).perm (.of_eq ?_) <| .of_eq ?_).congr rfl (by abel)⟩
    · simp [terminatorTargets]
      tauto
    · simp
    · simp [marks_live_cons, liveMarks, Mode.next]
  case doWhile bodyId condId restId hc hi hcs hbs hb hs =>
    obtain ⟨_, hb⟩ := Run.freshBlock hv hb
    obtain ⟨_, hc⟩ := Run.freshBlock hb.valid hc
    obtain ⟨_, hi⟩ := Run.freshBlock hc.valid hi
    obtain ⟨_, hcs⟩ := (lowerConditionBlock_cases hcs).emits hi.valid
    obtain ⟨_, hbs⟩ := withLoopTargets_emits hl hcs.alloc.valid hbs
    obtain ⟨_, hs⟩ := hl hs hbs.alloc.valid
    have ha := hb.trans <| hc.trans <| hi.trans <| hcs.alloc.trans hbs.alloc
    rw [exits_eq ha] at hs
    have h := (Emits.emit ⟨bid, instrs, .jump bodyId⟩ <| .refl hv).append <|
      (Emits.of_alloc hb).append <| (Emits.of_alloc hc).append <| (Emits.of_alloc hi).append <|
      hcs.append <| hbs.append hs
    refine ⟨_, ((h.resolve ?_).perm ?_ <| .of_eq ?_).congr rfl (by abel)⟩
    · simp [terminatorTargets]
      tauto
    · simpa using List.perm_append_comm_assoc ..
    · simp [marks_live_cons, liveMarks, Mode.next]
  case forDecls restId hf hi hs =>
    obtain ⟨_, hi⟩ := Run.freshBlock hv hi
    obtain ⟨_, hf⟩ := withVarScope_emits hi.valid (fun hr hv _ _ => (lowerForLoop_cases hr).emits hl hv) hf
    exact for_emits hl hi hf hs
  case forLoop restId _ hf hi hs =>
    obtain ⟨_, hi⟩ := Run.freshBlock hv hi
    obtain ⟨_, hf⟩ := (lowerForLoop_cases hf).emits hl hi.valid
    exact for_emits hl hi hf hs
  case switch valueInstrs valueOp dispatchId restId hd hi hb he hs =>
    have he := Run.onExprs hv he
    obtain ⟨_, hd⟩ := Run.freshBlock he.valid hd
    obtain ⟨_, hi⟩ := Run.freshBlock hd.valid hi
    obtain ⟨_, hb⟩ := lowerSwitch_emits hl hi.valid hb
    obtain ⟨_, hs⟩ := hl hs hb.alloc.valid
    have ha := he.trans <| hd.trans hi
    rw [exits_eq <| ha.trans hb.alloc] at hs
    rw [ha.continueTargets] at hb
    have h := (Emits.emit ⟨bid, instrs ++ valueInstrs, .jump dispatchId⟩ he).append <|
      (Emits.of_alloc hd).append <| (Emits.of_alloc hi).append <| hb.append hs
    refine ⟨_, ((h.resolve ?_).perm (.of_eq ?_) <| .of_eq ?_).congr rfl (by abel)⟩
    · simp [terminatorTargets, exits]
      tauto
    · simp
    · simp [marks_live_cons, liveMarks, Mode.next]
  case goto target hb ht =>
    obtain ⟨hn, ha⟩ := Run.labelBlock hv hb
    obtain ⟨_, ht⟩ := lowerUnreachableLabels_emits hl ha.valid ht
    rw [exits_eq ha] at ht
    have h := (Emits.goto bid instrs ha hn).append ht
    exact ⟨_, (h.perm .rfl <| .of_eq <| by simp [marks_live_cons, liveMarks, Mode.next]).congr (zero_add _) rfl⟩
  case label target hb hs =>
    obtain ⟨hn, ha⟩ := Run.labelBlock hv hb
    obtain ⟨_, hs⟩ := hl hs ha.valid
    rw [exits_eq ha] at hs
    have h := (Emits.emit ⟨bid, instrs, .jump target⟩ <| .refl hv).append <| .label ha hn hs
    refine ⟨_, ((h.resolve ?_).perm .rfl <| .of_eq ?_).congr (zero_add _) rfl⟩
    · intro t ht
      rcases List.mem_append.mp ht with ht | ht
      · obtain rfl := List.mem_singleton.mp ht
        exact .inr <| .inr ⟨_, List.mem_cons_self, hs.alloc.keep hn⟩
      · exact .inl ht
    · simp [marks_live_cons, liveMarks, Mode.next]
  case ite no yesId noId restId hn hr hys hns hy hcs =>
    obtain ⟨_, hy⟩ := Run.freshBlock hv hy
    obtain ⟨_, hn⟩ := Run.freshBlock hy.valid hn
    obtain ⟨_, hr, hi⟩ := lowerIfRestTarget_emits hl hn.valid hr
    obtain ⟨_, hys⟩ := hl hys hr.alloc.valid
    obtain ⟨_, hns⟩ := lowerIfNoBlocks_emits hl hys.alloc.valid hns
    obtain ⟨_, hcs⟩ := (lowerConditionBlock_cases hcs).emits hns.alloc.valid
    rw [exits_eq hys.alloc, exits_eq <| hy.trans <| hn.trans hr.alloc] at hns
    rw [exits_eq <| hy.trans <| hn.trans hr.alloc] at hys
    rw [exits_eq <| hy.trans hn] at hr hi
    have h := (Emits.of_alloc hy).append <| (Emits.of_alloc <| hn.ite (c := no.isEmpty)).append <| hr.append <| hys.append <|
      hns.append hcs
    refine ⟨_, ((h.resolve ?_).perm ?_ ?_).congr rfl (by abel)⟩
    · intro t ht
      have ht : t ∈ exits st term ∨ t = restId ∨ t = yesId ∨ no.isEmpty = false ∧ t = noId := by
        simp only [List.nil_append, List.mem_append, List.mem_cons, List.not_mem_nil, or_false] at ht
        rcases ht with ht | ht | ht | ht | ht
        · exact .inl ht
        · exact (eq_or_mem_exits ht).symm.imp_right .inl
        · exact (eq_or_mem_exits ht).symm.imp_right .inl
        · exact .inr <| .inr <| .inl ht
        · cases he : no.isEmpty <;> simp [he, ht]
      rcases ht with ht | rfl | rfl | ⟨he, rfl⟩
      · exact .inl ht
      · exact hi.imp_right fun h => .inl <| by simp [h]
      · simp
      · simp only [he]
        simp
    · rw [←Multiset.coe_eq_coe]
      simp only [←Multiset.coe_add, Multiset.coe_nil]
      abel
    · rw [←Multiset.coe_eq_coe]
      simp only [marks_live_cons, liveMarks, Mode.next, ←Multiset.coe_add, Multiset.coe_nil]
      abel
  case breaks target ht hb =>
    obtain ⟨_, hb⟩ := lowerUnreachableLabels_emits hl hv hb
    have h := (Emits.emit ⟨bid, instrs, .jump target⟩ <| .refl hv).append hb
    refine ⟨_, ((h.resolve ?_).perm .rfl <| .of_eq ?_).congr (zero_add _) rfl⟩
    · simp [terminatorTargets, exits, ht]
      tauto
    · simp [marks_live_cons, liveMarks, Mode.next]
  case continues target ht hb =>
    obtain ⟨_, hb⟩ := lowerUnreachableLabels_emits hl hv hb
    have h := (Emits.emit ⟨bid, instrs, .jump target⟩ <| .refl hv).append hb
    refine ⟨_, ((h.resolve ?_).perm .rfl <| .of_eq ?_).congr (zero_add _) rfl⟩
    · simp [terminatorTargets, exits, ht]
      tauto
    · simp [marks_live_cons, liveMarks, Mode.next]

theorem lowerStatementsFrom_emits : StatementsEmit (lowerStatementsFrom ex fuel) := by
  induction fuel
  case zero      => exact fun _ _ _ _ _ _ _ hr => absurd hr not_run_outOfFuel
  case succ _ hi => exact fun _ _ _ _ _ _ _ hr => (lowerStatementsFrom.step_cases hr).emits hi

end Statements
end Hcc
