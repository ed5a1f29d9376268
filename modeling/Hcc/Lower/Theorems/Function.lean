import Hcc.Compile.Run
import Hcc.Lower.Theorems.Closure

open Stateful

namespace Hcc

variable {ex : ExprLowering}

section Entry

variable {lower : BlockId → List Instr → List Stmt → Terminator → CompileM (List BasicBlock)}

-- The first block is the one that is lowered into.
def StartsWith (blocks : List BasicBlock) (bid : BlockId) : Prop :=
  ∃ block rest, blocks = block :: rest ∧ block.id = bid

theorem StartsWith.append (h : StartsWith B₁ bid) : StartsWith (B₁ ++ B₂) bid := by
  obtain ⟨block, rest, rfl, hi⟩ := h
  exact ⟨block, rest ++ B₂, rfl, hi⟩

theorem CondRun.startsWith {cond : Expr} (hr : CondRun ex bid instrs cond trueId falseId st B st') :
    StartsWith B bid := by
  induction hr
  case value          => exact ⟨_, _, rfl, rfl⟩
  case compare        => exact ⟨_, _, rfl, rfl⟩
  case and hi _       => exact hi.append
  case or hi _        => exact hi.append
  case not hi         => exact hi

theorem ForRun.startsWith {cond : Option Expr}
    (hr : ForRun ex lower bid instrs init cond step body restId st B st') : StartsWith B bid := by
  cases hr
  exact ⟨_, _, rfl, rfl⟩

theorem StepRun.startsWith
    (hl : ∀ ⦃bid instrs stmts term st B st'⦄, Run (lower bid instrs stmts term) st B st' → StartsWith B bid)
    (hr : StepRun ex lower bid instrs term stmts st B st') : StartsWith B bid := by
  cases hr
  case lastBlock hr =>
    obtain ⟨_, hr, -⟩ := run_within_iff.mp hr
    exact hl hr
  case block hr _ _ =>
    obtain ⟨_, hr, -⟩ := run_within_iff.mp hr
    exact (hl hr).append
  case straight hr   => exact hl hr
  case forDecls hr _ _ =>
    obtain ⟨_, hr, -⟩ := run_within_iff.mp hr
    exact (lowerForLoop_cases hr).startsWith.append
  case forLoop hr _ _ => exact (lowerForLoop_cases hr).startsWith.append
  case ite hr         => exact (lowerConditionBlock_cases hr).startsWith.append.append.append
  all_goals exact ⟨_, _, rfl, rfl⟩

theorem lowerStatementsFrom_startsWith
    (hr : Run (lowerStatementsFrom ex fuel bid instrs stmts term) st B st') : StartsWith B bid := by
  induction fuel generalizing bid instrs stmts term st B st'
  case zero      => exact absurd hr not_run_outOfFuel
  case succ _ hi => exact (lowerStatementsFrom.step_cases hr).startsWith fun _ _ _ _ _ _ _ => hi

end Entry

section Closed

variable {st₁ st₂ st' : CompileState} {B : List BasicBlock} {ms : List Mark} {F : Multiset Nat}

-- The emission of all blocks of a function. Before its first block is allocated, no labels are known.
structure EmitsAll (st₁ st₂ : CompileState) (F : Multiset Nat) (bid : BlockId) (ms : List Mark)
    (B : List BasicBlock) (st' : CompileState) : Prop where
  unlabeled : ∀ n, st₁.label? n = none
  alloc     : Alloc st₁ st' ({bid.index} + F)
  emits     : Emits st₂ F ({bid.index} + F) ms [] B st'

namespace EmitsAll

theorem label_index (h : EmitsAll st₁ st₂ F bid ms B st') (hn : st'.label? n = some b) :
    b.index ∉ ({bid.index} + F : Multiset Nat) := by
  rcases h.alloc.new hn with hl | ⟨-, hf⟩
  · exact absurd hl <| by simp [h.unlabeled]
  · exact hf

theorem labelIndex_injective (h : EmitsAll st₁ st₂ F bid ms B st') (hn : n ∈ markedLabels ms)
    (hm : m ∈ markedLabels ms) (he : st'.labelIndex n = st'.labelIndex m) : n = m := by
  have ⟨b, hb⟩ := h.emits.named n <| List.mem_append_left _ hn
  have ⟨c, hc⟩ := h.emits.named m <| List.mem_append_left _ hm
  simp only [CompileState.labelIndex, hb, hc, Option.elim_some] at he
  obtain rfl : b = c := congrArg BlockId.mk he
  exact h.emits.alloc.valid.injective hb hc

theorem nodup_iff (h : EmitsAll st₁ st₂ F bid ms B st') :
    (blockIndices B).Nodup ↔ (markedLabels ms).Nodup := by
  rw [h.emits.ids, Multiset.nodup_add]
  have hd : Disjoint ({bid.index} + F : Multiset Nat) (labelIndices st' ms) := by
    refine Multiset.disjoint_left.mpr fun hi hl => ?_
    have ⟨n, hn, he⟩ := List.mem_map.mp <| Multiset.mem_coe.mp hl
    have ⟨b, hb⟩ := h.emits.named n <| List.mem_append_left _ hn
    simp only [CompileState.labelIndex, hb, Option.elim_some] at he
    exact h.label_index hb <| he ▸ hi
  rw [and_iff_right h.alloc.nodup, and_iff_left hd, labelIndices, Multiset.coe_nodup]
  exact ⟨.of_map _, .map_on fun _ hn _ hm => h.labelIndex_injective hn hm⟩

theorem mem_ids_iff (h : EmitsAll st₁ st₂ F bid ms B st') (hn : st'.label? n = some b) :
    b.index ∈ blockIndices B ↔ n ∈ markedLabels ms := by
  rw [h.emits.ids, Multiset.mem_add, or_iff_right <| h.label_index hn]
  have hi : st'.labelIndex n = b.index := by
    simp [CompileState.labelIndex, hn]
  refine ⟨fun hl => ?_, fun hl => hi ▸ List.mem_map_of_mem hl⟩
  obtain ⟨m, hm, he⟩ := List.mem_map.mp <| Multiset.mem_coe.mp hl
  obtain ⟨c, hc⟩ := h.emits.named m <| List.mem_append_left _ hm
  simp only [CompileState.labelIndex, hc, Option.elim_some] at he
  obtain rfl : c = b := congrArg BlockId.mk he
  exact h.emits.alloc.valid.injective hc hn ▸ hm

theorem targets_iff (h : EmitsAll st₁ st₂ F bid ms B st') :
    (∀ t ∈ blockTargets B, t.index ∈ blockIndices B) ↔ ∀ n ∈ markedGotos ms, n ∈ markedLabels ms := by
  constructor
  · intro ht n hn
    have ⟨t, hm, hl⟩ := h.emits.gotos n hn
    exact h.mem_ids_iff hl |>.mp <| ht t hm
  · intro hg t ht
    rcases h.emits.targets t ht with he | hf | ⟨n, hn, hl⟩
    · contradiction
    · rw [h.emits.ids]
      simp [hf]
    · rcases List.mem_append.mp hn with hn | hn
      · exact h.mem_ids_iff hl |>.mpr hn
      · exact h.mem_ids_iff hl |>.mpr <| hg n hn

theorem entry_not_target (h : EmitsAll st₁ st₂ F bid ms B st') : bid ∉ blockTargets B := by
  intro ht
  rcases h.emits.targets _ ht with he | hf | ⟨n, -, hl⟩
  · contradiction
  · exact (Multiset.nodup_cons.mp h.alloc.nodup).left hf
  · exact h.label_index hl <| by simp

end EmitsAll
end Closed

theorem mem_blockIndices : b.index ∈ blockIndices B ↔ b ∈ B.map (·.id) := by
  simp only [blockIndices, Multiset.mem_coe, List.mem_map]
  exact exists_congr fun block => and_congr_right fun _ => ⟨congrArg BlockId.mk, congrArg BlockId.index⟩

theorem nodup_blockIndices : (blockIndices B).Nodup ↔ (B.map (·.id)).Nodup := by
  have hi : Function.Injective BlockId.index := fun _ _ h => congrArg BlockId.mk h
  have he : B.map (·.id.index) = (B.map (·.id)).map BlockId.index := List.map_map.symm
  rw [blockIndices, Multiset.coe_nodup, he, List.nodup_map_iff hi]

theorem EmitsAll.closed_iff (h : EmitsAll st₁ st₂ F bid ms B st') (hs : StartsWith B bid) :
    Closed ⟨name, B⟩ ↔
      (markedLabels ms).Nodup ∧ ∀ n ∈ markedGotos ms, n ∈ markedLabels ms := by
  rw [←h.nodup_iff, ←h.targets_iff, nodup_blockIndices]
  constructor
  · intro hc
    refine ⟨hc.distinct, fun t ht => mem_blockIndices.mpr ?_⟩
    exact List.count_pos_iff.mp <| hc.targets t ht ▸ Nat.one_pos
  · rintro ⟨hd, ht⟩
    obtain ⟨block, rest, rfl, rfl⟩ := hs
    refine ⟨hd, fun t hm => ?_, block, rest, rfl, h.entry_not_target⟩
    exact List.count_eq_one_of_mem hd <| mem_blockIndices.mp <| ht t hm

section Function

variable {st : CompileState}

theorem CompileState.label?_none (h : st.labels = symbolMapEmpty) : st.label? n = none :=
  (congrArg (symbolMapLookup n) h).trans SymbolMap.lookup_empty

theorem CompileState.Valid.of_empty (h : st.labels = symbolMapEmpty) : st.Valid where
  ordered       := h ▸ SymbolMap.ordered_empty
  bound hl      := by simp [label?_none h] at hl
  injective hl  := by simp [label?_none h] at hl

theorem defaultReturnTerm_targets (hv : st.Valid) (hr : Run defaultReturnTerm st term st') :
    Alloc st st' 0 ∧ terminatorTargets term = [] := by
  simp only [defaultReturnTerm, run_bind_iff] at hr
  obtain ⟨_, _, he, hr⟩ := hr
  split at hr <;> obtain ⟨rfl, rfl⟩ := run_pure_iff.mp hr <;> exact ⟨Run.onExprs hv he, rfl⟩

theorem lowerFunctionBody_closed_iff (hl : st.labels = symbolMapEmpty) (hb : st.breakTargets = [])
    (hc : st.continueTargets = []) (hr : Run (lowerFunctionBody ex fuel name params body) st fn st') :
    Closed fn ↔ GotosResolve body := by
  simp only [lowerFunctionBody, run_bind_iff, run_pure_iff] at hr
  obtain ⟨bid, _, hf, _, _, hp, _, _, hd, _, _, hs, rfl, rfl⟩ := hr
  have hv := CompileState.Valid.of_empty hl
  obtain ⟨hi, hf⟩ := Run.freshBlock hv hf
  have hp := hf.trans <| Run.onExprs hf.valid hp
  obtain ⟨hd, ht⟩ := defaultReturnTerm_targets hp.valid hd
  have hp := hp.trans hd
  obtain ⟨_, he⟩ := lowerStatementsFrom_emits hs hp.valid
  rw [exits_eq hp, exits, ht, hb, hc] at he
  have ha : {bid.index} + 0 + 0 = ({bid.index} : Multiset Nat) := by simp
  have h : EmitsAll st _ _ bid _ _ _ := ⟨fun _ => CompileState.label?_none hl, ha ▸ hp.trans he.alloc, he⟩
  exact h.closed_iff <| lowerStatementsFrom_startsWith hs

-- The targets of a function's terminators are the ids of its blocks, if and only if the labels that are
-- lowered are distinct, and the gotos that are lowered refer to them.
theorem lowerFunction_closed_iff (hr : Run (lowerFunction ex fuel name params body) st fn st') :
    Closed fn ↔ GotosResolve body := by
  obtain ⟨t, hr, -⟩ := run_within_iff.mp <| run_withErrorContext_iff.mp hr
  obtain ⟨u, hr, -⟩ := run_within_iff.mp hr
  exact lowerFunctionBody_closed_iff rfl rfl rfl hr

def rejectExprs : ExprLowering where
  lowerExpr _                 := throw "expression"
  lowerSideEffect _           := throw "expression"
  lowerDecl _ _ _             := throw "declaration"
  lowerBranchComparison _ _ _ := throw "comparison"
  coerceScalar _ _            := throw "conversion"

-- void f() { L: goto L; }
def gotoLoop : List Stmt :=
  [.sLabel "L", .sGoto "L"]

theorem lowerFunction_gotoLoop :
    Closed ⟨"f", [⟨⟨0⟩, [], .jump ⟨1⟩⟩, ⟨⟨1⟩, [], .jump ⟨1⟩⟩]⟩ ↔ GotosResolve gotoLoop :=
  lowerFunction_closed_iff (show Run (lowerFunction rejectExprs 3 "f" [] gotoLoop) {} _ _ from rfl)

-- int f() { goto L; { L: return 1; } }
def gotoBlock : List Stmt :=
  [.sGoto "L", .sBlock [.sLabel "L", .sReturn (some (.int ['1']))]]

theorem lowerFunction_gotoBlock :
    UniqueLabels gotoBlock ∧ ∃ fn st', Run (lowerFunction rejectExprs 3 "f" [] gotoBlock) {} fn st' ∧
      ¬Closed fn := by
  refine ⟨by decide, ⟨"f", [⟨⟨0⟩, [], .jump ⟨1⟩⟩]⟩, _, rfl, fun h => ?_⟩
  exact absurd (h.targets ⟨1⟩ <| by decide) (by decide)

end Function
end Hcc
