import Hcc.Lower.Theorems.Cases
import Hcc.Lower.Theorems.Meaning.Expressions
import Hcc.Lower.Theorems.Temps.Statement

open Stateful Fueled CInteger

-- The blocks for a condition go to the block that its value selects.
namespace Hcc

variable {w word fuel : Nat} {World : Type} {m : Machine w World} {s s₀ s₁ s' : Frame w World} {st st₁ st' : CompileState}
variable {Γ : String → Option CType} {ρ : String → Int} {cond : Expr} {t : IntType} {x : Int} {instrs : List Instr}
variable {bid trueId falseId : BlockId} {blocks : List BasicBlock} {code : BlockId → Option BasicBlock}

-- The frames differ only in temporaries that had not been allocated.
structure Frame.Agree (k : Nat) (s s' : Frame w World) : Prop where
  world : s'.world = s.world
  temps : ∀ t, t.index < k → s'.temps t = s.temps t

theorem Frame.Agree.trans {k n : Nat} (h : Frame.Agree k s s₁) (h' : Frame.Agree n s₁ s') (hk : k ≤ n) :
    Frame.Agree k s s' where
  world     := h'.world.trans h.world
  temps t l := (h'.temps t <| l.trans_le hk).trans <| h.temps t l

theorem Context.later {scope : Scope} {st st' : ValueState} (hc : Context m word Γ ρ scope st s) (he : st.Extends st')
    (ha : Frame.Agree st.nextTemp s s') : Context m word Γ ρ scope st' s' where
  toReady    := hc.toReady.congr he.targetBits he.constants
  standard   := hc.standard
  sizes      := hc.sizes
  width      := hc.width
  values h k := by
    obtain ⟨hl, b, hb, hv⟩ := hc.values h k
    exact ⟨hl.trans_le he.nextTemp, b, (ha.temps _ hl).trans hb, hv⟩

-- The computations on expressions change the values only.
theorem run_onExprs_onValues {α : Type} {act : ValueM α} {a : α} (hr : Run (onExprs (onValues act)) st a st') :
    st'.vars = st.vars ∧ Run (act st.vars) st.toValueState a st'.toValueState := by
  obtain ⟨ex, hr₁, rfl⟩ := run_within_iff.mp hr
  obtain ⟨values, hr₂, rfl⟩ := run_onValues_iff.mp hr₁
  exact ⟨rfl, hr₂⟩

theorem run_freshBlock {id : BlockId} (hr : Run freshBlock st id st') :
    id = ⟨st.nextBlock⟩ ∧ st' = { st with nextBlock := st.nextBlock + 1 } := by
  obtain ⟨rfl, rfl⟩ := Prod.mk.inj <| Except.ok.inj <| Fueled.done_inj.mp hr
  exact ⟨rfl, rfl⟩

theorem CondRun.extends (h : CondRun (exprLowering fuel) bid instrs cond trueId falseId st blocks st') :
    st'.vars = st.vars ∧ st.toValueState.Extends st'.toValueState := by
  induction h
  case value hr =>
    obtain ⟨hv, hr⟩ := run_onExprs_onValues hr
    exact ⟨hv, (lowering_steady fuel).lowerExpr _ hr⟩
  case compare hr =>
    obtain ⟨hv, hr⟩ := run_onExprs_onValues hr
    exact ⟨hv, Lowering.lowerBranchComparison_respects (lowering_steady fuel) _ _ _ hr⟩
  case and hf _ _ hl hr =>
    obtain ⟨rfl, rfl⟩ := run_freshBlock hf
    exact ⟨hr.left.trans hl.left, hl.right.trans hr.right⟩
  case or hf _ _ hl hr =>
    obtain ⟨rfl, rfl⟩ := run_freshBlock hf
    exact ⟨hr.left.trans hl.left, hl.right.trans hr.right⟩
  case not hi => exact hi

theorem Machine.steps_block {is : List Instr} {term : Terminator} {id : BlockId}
    (hb : code bid = some ⟨bid, is, term⟩) (hr : m.execs 0 is s = some s') (ht : m.target 0 s' term = some id) :
    m.Steps 0 code (bid, s) (id, s') :=
  Relation.ReflTransGen.single <| by simp [stepBlock, hb, hr, ht]

section Inversion

variable {a b : Expr} {name : String}

theorem Expr.Evaluates.not_inv (h : Expr.Evaluates word Γ ρ (.unary "!" a) t x) :
    ∃ s y, Expr.Evaluates word Γ ρ a s y ∧ x = BinaryOp.ofBool (y = 0) := by
  generalize hs : Expr.unary "!" a = e at h
  cases h <;> simp at hs
  case unary hn _ =>
    obtain ⟨rfl, -⟩ := hs
    cases hn
  case not h =>
    subst hs
    exact ⟨_, _, h, rfl⟩

theorem Expr.Evaluates.and_inv (h : Expr.Evaluates word Γ ρ (.binary "&&" a b) t x) :
    ∃ s y, Expr.Evaluates word Γ ρ a s y ∧ (y = 0 ∧ x = 0 ∨
      y ≠ 0 ∧ ∃ u z, Expr.Evaluates word Γ ρ b u z ∧ x = BinaryOp.ofBool (z ≠ 0)) := by
  generalize hs : Expr.binary "&&" a b = e at h
  cases h <;> simp at hs
  case binary hn hl _ _ _ _ =>
    obtain ⟨rfl, -⟩ := hs
    cases hn
    exact absurd rfl hl.left
  case and ha hx hb =>
    obtain ⟨rfl, rfl⟩ := hs
    exact ⟨_, _, ha, .inr ⟨hx, _, _, hb, rfl⟩⟩
  case andFalse ha _ =>
    obtain ⟨rfl, rfl⟩ := hs
    exact ⟨_, _, ha, .inl ⟨rfl, rfl⟩⟩

theorem Expr.Evaluates.or_inv (h : Expr.Evaluates word Γ ρ (.binary "||" a b) t x) :
    ∃ s y, Expr.Evaluates word Γ ρ a s y ∧ (y ≠ 0 ∧ x = 1 ∨
      y = 0 ∧ ∃ u z, Expr.Evaluates word Γ ρ b u z ∧ x = BinaryOp.ofBool (z ≠ 0)) := by
  generalize hs : Expr.binary "||" a b = e at h
  cases h <;> simp at hs
  case binary hn hl _ _ _ _ =>
    obtain ⟨rfl, -⟩ := hs
    cases hn
    exact absurd rfl hl.right
  case or ha hb =>
    obtain ⟨rfl, rfl⟩ := hs
    exact ⟨_, _, ha, .inr ⟨rfl, _, _, hb, rfl⟩⟩
  case orTrue ha hx _ =>
    obtain ⟨rfl, rfl⟩ := hs
    exact ⟨_, _, ha, .inl ⟨hx, rfl⟩⟩

theorem Expr.Evaluates.comparison_inv (h : Expr.Evaluates word Γ ρ (.binary name a b) t x)
    (ho : isBranchComparisonOpString name) : ∃ bop s u y z, binaryOp? name = some bop ∧
      Expr.Evaluates word Γ ρ a s y ∧ Expr.Evaluates word Γ ρ b u z ∧ x = bop.value s.promote u.promote y z := by
  generalize hs : Expr.binary name a b = e at h
  cases h <;> simp at hs
  case binary hn _ ha hb _ _ =>
    obtain ⟨rfl, rfl, rfl⟩ := hs
    exact ⟨_, _, _, _, _, hn, ha, hb, rfl⟩
  all_goals
    obtain ⟨rfl, -⟩ := hs
    cases ho

end Inversion

theorem ofBool_ne_zero {p : Bool} : BinaryOp.ofBool p ≠ 0 ↔ p = true := by
  cases p <;> decide

theorem Context.selects {scope : Scope} {st : ValueState} (hc : Context m word Γ ρ scope st s)
    (he : Expr.Evaluates word Γ ρ cond t x) :
    some (if BitVec.ofInt w x ≠ 0 then trueId else falseId) = some (if x ≠ 0 then trueId else falseId) :=
  congrArg some <| if_congr
    (not_congr <| IntType.ofInt_eq_zero_iff (hc.width_le (hc.fits he).left) (hc.fits he).right) rfl rfl

-- The value of the condition selects the block.
theorem CondRun.branches (h : CondRun (exprLowering fuel) bid instrs cond trueId falseId st blocks st')
    (he : Expr.Evaluates word Γ ρ cond t x) (hb : ∀ block ∈ blocks, code block.id = some block)
    (hi : m.execs 0 instrs s₀ = some s) (hc : Context m word Γ ρ st.vars st.toValueState s) :
    ∃ s', m.Steps 0 code (bid, s₀) (if x ≠ 0 then trueId else falseId, s') ∧ Frame.Agree st.nextTemp s s' := by
  induction h generalizing t x s₀ s
  case value hr =>
    obtain ⟨-, hr⟩ := run_onExprs_onValues hr
    obtain ⟨s', hp, hw, hd⟩ := lowerExpr_lowers he fuel hc hr
    refine ⟨s', Machine.steps_block (hb _ <| List.mem_singleton_self _) ?_ ?_, hw, hp.temps⟩
    · rw [Machine.execs_append, hi]
      exact hp.runs
    · rw [Machine.target, hd.word]
      exact hc.selects he
  case compare ho hr =>
    obtain ⟨-, hr⟩ := run_onExprs_onValues hr
    obtain ⟨bop, _, _, y, z, hn, ha, hb', rfl⟩ := he.comparison_inv ho
    obtain ⟨s', hp, hw, v, v', hv, hv', hm⟩ := lowerBranchComparison_performs lowering_toTyping ha.typed hb'.typed
      (lowerExpr_lowers ha fuel) (lowerExpr_lowers hb' fuel) hc hn ho hr
    refine ⟨s', Machine.steps_block (hb _ <| List.mem_singleton_self _) ?_ ?_, hw, hp.temps⟩
    · rw [Machine.execs_append, hi]
      exact hp.runs
    · rw [Machine.target, hv, hv']
      simp only [Option.bind_eq_bind, Option.bind_some, hm]
      exact hc.selects he
  case and hf hl hr hil hir =>
    obtain ⟨rfl, rfl⟩ := run_freshBlock hf
    obtain ⟨hbl, hbr⟩ := List.forall_mem_append.mp hb
    obtain ⟨_, y, ha, hy⟩ := he.and_inv
    obtain ⟨s₁, hs₁, hg₁⟩ := hil ha hbl hi hc
    rcases hy with ⟨rfl, rfl⟩ | ⟨hy, _, z, hz, rfl⟩
    case inl => exact ⟨s₁, hs₁, hg₁⟩
    case inr =>
      rw [if_pos hy] at hs₁
      have hc₁ := hc.later hl.extends.right hg₁
      obtain ⟨s₂, hs₂, hg₂⟩ := hir hz hbr rfl (hl.extends.left ▸ hc₁)
      refine ⟨s₂, ?_, hg₁.trans hg₂ hl.extends.right.nextTemp⟩
      simp only [ofBool_ne_zero, decide_eq_true_eq]
      exact hs₁.trans hs₂
  case or hf hl hr hil hir =>
    obtain ⟨rfl, rfl⟩ := run_freshBlock hf
    obtain ⟨hbl, hbr⟩ := List.forall_mem_append.mp hb
    obtain ⟨_, y, ha, hy⟩ := he.or_inv
    obtain ⟨s₁, hs₁, hg₁⟩ := hil ha hbl hi hc
    rcases hy with ⟨hy, rfl⟩ | ⟨rfl, _, z, hz, rfl⟩
    case inl =>
      rw [if_pos hy] at hs₁
      exact ⟨s₁, hs₁, hg₁⟩
    case inr =>
      have hc₁ := hc.later hl.extends.right hg₁
      obtain ⟨s₂, hs₂, hg₂⟩ := hir hz hbr rfl (hl.extends.left ▸ hc₁)
      refine ⟨s₂, ?_, hg₁.trans hg₂ hl.extends.right.nextTemp⟩
      simp only [ofBool_ne_zero, decide_eq_true_eq]
      exact hs₁.trans hs₂
  case not hr hi' =>
    obtain ⟨_, y, ha, rfl⟩ := he.not_inv
    obtain ⟨s₁, hs₁, hg₁⟩ := hi' ha hb hi hc
    refine ⟨s₁, ?_, hg₁⟩
    simp only [ofBool_ne_zero, decide_eq_true_eq]
    rw [ite_not] at hs₁
    exact hs₁

section Generation

variable {α β : Type} {scope : Scope} {act : CompileM α} {f : α → CompileM β}

-- The computation has a result, and the variables are the same and still known.
def Emitted (word : Nat) (Γ : String → Option CType) (scope : Scope) (act : CompileM α) : Prop :=
  ∀ ⦃st⦄, st.vars = scope → Ready word Γ scope st.toValueState →
    ∃ a st', Run act st a st' ∧ st'.vars = scope ∧ Ready word Γ scope st'.toValueState

namespace Emitted

theorem pure {a : α} : Emitted word Γ scope (Pure.pure a) :=
  fun st hv hs => ⟨a, st, run_pure_iff.mpr ⟨rfl, rfl⟩, hv, hs⟩

theorem bind (h : Emitted word Γ scope act) (hf : ∀ a, Emitted word Γ scope (f a)) :
    Emitted word Γ scope (act >>= f) := by
  intro st hv hs
  obtain ⟨a, st₁, hr, hv₁, hs₁⟩ := h hv hs
  obtain ⟨b, st', hr', hv', hs'⟩ := hf a hv₁ hs₁
  exact ⟨b, st', run_bind_iff.mpr ⟨a, st₁, hr, hr'⟩, hv', hs'⟩

theorem onExprs {act : ValueM α} (h : Generates word Γ scope act) : Emitted word Γ scope (Hcc.onExprs (onValues act)) := by
  intro st hv hs
  obtain ⟨a, values, hr, hs'⟩ := h hs
  subst hv
  exact ⟨a, _, run_within_iff.mpr ⟨_, run_onValues_iff.mpr ⟨values, hr, rfl⟩, rfl⟩, rfl, hs'⟩

theorem freshBlock : Emitted word Γ scope Hcc.freshBlock :=
  fun st hv hs => ⟨_, { st with nextBlock := st.nextBlock + 1 }, rfl, hv, hs⟩

end Emitted

theorem lowerValueConditionBlock_emitted (h : Generates word Γ scope ((lowering fuel).lowerExpr cond)) :
    Emitted word Γ scope (lowerValueConditionBlock (exprLowering fuel) bid instrs cond trueId falseId) :=
  (Emitted.onExprs h).bind fun _ => .pure

-- The blocks of a condition are emitted if enough fuel is given.
theorem lowerConditionBlock_emitted (hw : word = 4 ∨ word = 8) (hΓ : Names Γ scope) (h : Expr.Typed word Γ cond t) :
    Enough fun fuel => ∀ bid instrs trueId falseId,
      Emitted word Γ scope (lowerConditionBlock (exprLowering fuel) bid instrs cond trueId falseId) := by
  have hval {e : Expr} {t : IntType} (h : Expr.Typed word Γ e t) : Enough fun fuel => ∀ bid instrs trueId falseId,
      Emitted word Γ scope (lowerValueConditionBlock (exprLowering fuel) bid instrs e trueId falseId) :=
    (lowerExpr_generates hw hΓ h).mono fun _ h _ _ _ _ => lowerValueConditionBlock_emitted h
  induction h
  case not hi => exact hi.mono fun _ hi bid instrs trueId falseId => hi bid instrs falseId trueId
  case unary op _ _ _ hn he _ =>
    have ho : op ≠ "!" := by
      rintro rfl
      cases hn
    refine (hval (.unary hn he)).mono fun _ h bid instrs trueId falseId => ?_
    rw [lowerConditionBlock, if_neg ho]
    exact h ..
  case binary op a b s t bop hn ha hb hia hib =>
    have hty {e : Expr} {t : IntType} (h : Expr.Typed word Γ e t) := exprType_returns hw hΓ h
    have hgen {e : Expr} {t : IntType} (h : Expr.Typed word Γ e t) := lowerExpr_generates hw hΓ h
    refine (((hia.and hib).and ((hty ha).and (hty hb))).and (((hgen ha).and (hgen hb)).and
      (hval (.binary hn ha hb)))).mono fun fuel h bid instrs trueId falseId => ?_
    obtain ⟨⟨⟨hia, hib⟩, ⟨hp, hra⟩, -, hrb⟩, ⟨hea, heb⟩, hv⟩ := h
    rw [lowerConditionBlock]
    split_ifs
    case pos => exact Emitted.freshBlock.bind fun _ => (hia ..).bind fun _ => (hib ..).bind fun _ => .pure
    case pos => exact Emitted.freshBlock.bind fun _ => (hia ..).bind fun _ => (hib ..).bind fun _ => .pure
    case pos =>
      exact (Emitted.onExprs (lowerBranchComparison_generates lowering_toTyping hw hΓ hp ha hb hra hrb hea heb)).bind
        fun _ => .pure
    case neg => exact hv ..
  -- The blocks of all other conditions are those for a value.
  case int h₁ h₂ h₃        => exact hval (.int h₁ h₂ h₃)
  case char                => exact hval .char
  case var h₁ h₂           => exact hval (.var h₁ h₂)
  case sizeofType h₁       => exact hval (.sizeofType h₁)
  case sizeofExpr h₁ _     => exact hval (.sizeofExpr h₁)
  case cast h₁ h₂ _        => exact hval (.cast h₁ h₂)
  case plus h₁ _           => exact hval (.plus h₁)
  case comma h₁ h₂ _ _     => exact hval (.comma h₁ h₂)
  case cond h₁ h₂ h₃ _ _ _ => exact hval (.cond h₁ h₂ h₃)

end Generation

section Example

def isNegativeState : CompileState :=
  { vars := magnitudeScope, nextTemp := 1, nextBlock := 3 }

theorem isNegative_context : Context (byteMachine 64 (by decide)) 8 magnitudeVars (fun _ => -7) isNegativeState.vars
    isNegativeState.toValueState ⟨fun _ => 0, fun _ => some <| .ofInt 64 (-7)⟩ :=
  magnitude_context

end Example

end Hcc
