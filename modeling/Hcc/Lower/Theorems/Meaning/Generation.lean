import Hcc.Lower.Expression
import Hcc.Lower.Theorems.Designator
import Hcc.Lower.Theorems.Meaning.Results

open Stateful Fueled CInteger

-- Code is emitted for all integer expressions that have a type.
namespace Hcc

variable {α β : Type} {word fuel : Nat} {scope : Scope} {act : ValueM α} {f : α → ValueM β} {p : α → Prop}
variable {ty : CType} {s t : IntType} {Γ : String → Option CType} {e a b c : Expr} {op : Operand} {st st' : ValueState}

-- The variables are known, and their names do not stand for anything else.
structure Ready (word : Nat) (Γ : String → Option CType) (scope : Scope) (st : ValueState) : Prop where
  target : targetLongSize st = word
  named  : ∀ {name ty}, Γ name = some ty → isFunctionNameMacro name = false ∧ builtinConstant name = none ∧
           symbolMapLookup name st.constants = none
  bound  : ∀ {name ty}, Γ name = some ty → ∃ temp, scopeMapLookup name scope = some (temp, ty)

namespace Ready

theorem congr (h : Ready word Γ scope st) (hb : st'.targetBits = st.targetBits) (hc : st'.constants = st.constants) :
    Ready word Γ scope st' where
  target  := by
    rw [←h.target, targetLongSize, targetLongSize, hb]
  named k := by
    rw [hc]
    exact h.named k
  bound   := h.bound

theorem names (h : Ready word Γ scope st) : Names Γ scope :=
  fun k => ⟨(h.named k).left, h.bound k⟩

end Ready

-- The computation has a result, and the variables still are known.
def Generates (word : Nat) (Γ : String → Option CType) (scope : Scope) (act : ValueM α) : Prop :=
  ∀ ⦃st⦄, Ready word Γ scope st → ∃ a st', Run (act scope) st a st' ∧ Ready word Γ scope st'

namespace Generates

theorem pure {a : α} : Generates word Γ scope (Pure.pure a) :=
  fun st h => ⟨a, st, run_value_pure_iff.mpr ⟨rfl, rfl⟩, h⟩

theorem bind (h : Generates word Γ scope act) (hf : ∀ a, Generates word Γ scope (f a)) :
    Generates word Γ scope (act >>= f) := by
  intro st hs
  obtain ⟨a, st₁, hr, hs₁⟩ := h hs
  obtain ⟨b, st', hr', hs'⟩ := hf a hs₁
  exact ⟨b, st', run_value_bind_iff.mpr ⟨a, st₁, hr, hr'⟩, hs'⟩

theorem map {g : α → β} (h : Generates word Γ scope act) : Generates word Γ scope (g <$> act) := by
  intro st hs
  obtain ⟨a, st₁, hr, hs₁⟩ := h hs
  exact ⟨g a, st₁, run_value_map_iff.mpr ⟨a, hr, rfl⟩, hs₁⟩

theorem answer (h : HasResult word scope act) (ha : Answers word scope act p)
    (hf : ∀ a, p a → Generates word Γ scope (f a)) : Generates word Γ scope (act >>= f) := by
  intro st hs
  obtain ⟨a, st₁, hr⟩ := h hs.target
  obtain ⟨hp, rfl⟩ := ha hs.target rfl hr
  obtain ⟨b, st', hr', hs'⟩ := hf a hp hs
  exact ⟨b, st', run_value_bind_iff.mpr ⟨a, _, hr, hr'⟩, hs'⟩

theorem freshTemp : Generates word Γ scope Hcc.freshTemp :=
  fun _ hs => ⟨_, _, run_freshTemp_iff.mpr ⟨rfl, rfl⟩, hs.congr rfl rfl⟩

end Generates

section Conversions

theorem coerceScalar_generates (hp : 0 < fuel) (ht : ty.Integer word t) :
    Generates word Γ scope ((typing fuel).coerceScalar ty op) := by
  unfold Typing.coerceScalar
  split
  case h_1 =>
    unfold coerceBool
    split
    · exact .pure
    · exact Generates.freshTemp.bind fun _ => .pure
  case h_2 =>
    refine .answer .pure (isIntegerTypeM_answers ht) fun _ he => ?_
    subst he
    refine .answer (typeSize_returns hp ht) (typeSize_answers ht) fun size _ => ?_
    have hfresh {g : Temp → List Instr × Operand} : Generates word Γ scope (do return g (← freshTemp)) :=
      Generates.freshTemp.bind fun _ => .pure
    split
    case isTrue => exact .pure
    case isFalse =>
      split
      case h_1 => exact .pure
      case h_2 => split <;> exact hfresh

end Conversions

section Operators

variable {l : Lowering} (hT : l.toTyping = typing fuel) (hw : word = 4 ∨ word = 8) (hΓ : Names Γ scope) (hp : 0 < fuel)
variable (ha : Expr.Typed word Γ a s) (hb : Expr.Typed word Γ b t)
variable (hra : HasResult word scope ((typing fuel).exprType a)) (hrb : HasResult word scope ((typing fuel).exprType b))
variable (hea : Generates word Γ scope (l.lowerExpr a)) (heb : Generates word Γ scope (l.lowerExpr b))

theorem lowerTruthExpr_generates (heb : Generates word Γ scope (l.lowerExpr b)) :
    Generates word Γ scope (l.lowerTruthExpr b) := by
  refine heb.bind ?_
  rintro ⟨instrs, op⟩
  dsimp only
  split
  case isTrue  => exact .pure
  case isFalse => exact Generates.freshTemp.bind fun _ => .pure

theorem lowerShortCircuit_generates {isAnd : Bool} (hea : Generates word Γ scope (l.lowerExpr a))
    (heb : Generates word Γ scope (l.lowerExpr b)) : Generates word Γ scope (l.lowerShortCircuit isAnd a b) :=
  hea.bind fun _ => (lowerTruthExpr_generates heb).bind fun _ => Generates.freshTemp.bind fun _ => by
    cases isAnd <;> exact .pure

include hT hw hΓ hp ha hb hra hrb hea heb

theorem lowerPlainBin_generates {iop : BinOp} : Generates word Γ scope (l.lowerPlainBin iop a b) := by
  unfold Lowering.lowerPlainBin
  rw [hT]
  refine hea.bind ?_
  rintro ⟨ai, ao⟩
  refine heb.bind ?_
  rintro ⟨bi, bo⟩
  have hty : HasResult word scope (if isComparisonBinOp iop then (typing fuel).comparisonOperandType a b
      else (typing fuel).usualArithmeticType a b) ∧
      Answers word scope (if isComparisonBinOp iop then (typing fuel).comparisonOperandType a b
      else (typing fuel).usualArithmeticType a b) (·.Integer word (s.promote.common t.promote)) := by
    split
    case isTrue  =>
      exact ⟨comparisonOperandType_returns hw hΓ ha hb hp hra hrb, Expr.Typed.comparison_answers hw hΓ ha hb fuel⟩
    case isFalse =>
      exact ⟨usualArithmeticType_returns hw hΓ ha hb hp hra hrb, Expr.Typed.usual_answers hw hΓ ha hb fuel⟩
  refine .answer hty.left hty.right fun ty hty => ?_
  refine (coerceScalar_generates hp hty).bind fun _ => (coerceScalar_generates hp hty).bind fun _ => ?_
  refine Generates.freshTemp.bind fun out => Generates.bind ?_ fun _ => .pure
  split
  case isTrue  => exact .pure
  case isFalse => exact coerceScalar_generates hp hty

theorem lowerComparisonOperands_generates : Generates word Γ scope (l.lowerComparisonOperands a b) := by
  have hr := comparisonOperandType_returns hw hΓ ha hb hp hra hrb
  have ht := Expr.Typed.comparison_answers hw hΓ ha hb fuel
  unfold Lowering.lowerComparisonOperands
  rw [hT]
  refine hea.bind fun _ => heb.bind fun _ => .answer hr ht fun _ hty => ?_
  exact (coerceScalar_generates hp hty).bind fun _ => (coerceScalar_generates hp hty).bind fun _ => .pure

omit hea heb in
theorem comparisonOp_generates {name : String} : Generates word Γ scope (l.comparisonOp name a b) := by
  unfold Typing.comparisonOp
  rw [hT]
  exact .answer (comparisonOperandType_returns hw hΓ ha hb hp hra hrb) (Expr.Typed.comparison_answers hw hΓ ha hb fuel)
    fun _ _ => .pure

theorem lowerComparisonExpr_generates {name : String} : Generates word Γ scope (l.lowerComparisonExpr name a b) :=
  (lowerComparisonOperands_generates hT hw hΓ hp ha hb hra hrb hea heb).bind fun _ => Generates.freshTemp.bind fun _ =>
    (comparisonOp_generates hT hw hΓ hp ha hb hra hrb).bind fun _ => .pure

theorem lowerBranchComparison_generates {name : String} :
    Generates word Γ scope (l.lowerBranchComparison name a b) := by
  refine (lowerComparisonOperands_generates hT hw hΓ hp ha hb hra hrb hea heb).bind fun _ => .bind ?_ fun _ => .pure
  split
  case isTrue  => exact .pure
  case isFalse =>
    split
    case isTrue  => exact .pure
    case isFalse => exact comparisonOp_generates hT hw hΓ hp ha hb hra hrb

omit hrb in
theorem lowerShiftExpr_generates {name : String} {bop : BinaryOp} (hn : binaryOp? name = some bop)
    (hr : HasResult word scope ((typing fuel).exprType (.binary name a b))) :
    Generates word Γ scope (l.lowerShiftExpr name a b) := by
  have hta := exprType_answers hw hΓ ha fuel
  have hty := exprType_answers hw hΓ (.binary hn ha hb) fuel
  unfold Lowering.lowerShiftExpr
  rw [hT]
  refine hea.bind fun _ => heb.bind fun _ => Generates.freshTemp.bind fun _ => ?_
  refine Generates.bind ?_ fun _ => .answer hr hty fun _ he => ?_
  case refine_1 =>
    split
    case isTrue  =>
      exact .answer (promotedExprType_returns hp ha.not_float hta hra) (Expr.Typed.promoted_answers hw hΓ ha fuel)
        fun _ _ => .pure
    case isFalse => exact .pure
  case refine_2 =>
    obtain ⟨ty, rfl, ht⟩ := he
    exact (coerceScalar_generates hp ht).bind fun _ => .pure

theorem lowerAddExpr_generates : Generates word Γ scope (l.lowerAddExpr a b) := by
  unfold Lowering.lowerAddExpr
  refine .answer (hT ▸ hra) (hT ▸ exprType_answers hw hΓ ha fuel) fun _ hta => ?_
  refine .answer (hT ▸ hrb) (hT ▸ exprType_answers hw hΓ hb fuel) fun _ htb => ?_
  rw [hta.pointer, htb.pointer]
  exact lowerPlainBin_generates hT hw hΓ hp ha hb hra hrb hea heb

theorem lowerSubExpr_generates : Generates word Γ scope (l.lowerSubExpr a b) := by
  unfold Lowering.lowerSubExpr
  refine .answer (hT ▸ hra) (hT ▸ exprType_answers hw hΓ ha fuel) fun _ hta => ?_
  refine .answer (hT ▸ hrb) (hT ▸ exprType_answers hw hΓ hb fuel) fun _ htb => ?_
  rw [hta.pointer]
  exact lowerPlainBin_generates hT hw hΓ hp ha hb hra hrb hea heb

theorem lowerDivision_generates {name : String} : Generates word Γ scope (l.lowerDivision name a b) := by
  unfold Lowering.lowerDivision
  rw [hT]
  have hu := usualArithmeticType_returns hw hΓ ha hb hp hra hrb
  refine .answer hu (Expr.Typed.usual_answers hw hΓ ha hb fuel) fun _ _ => ?_
  exact lowerPlainBin_generates hT hw hΓ hp ha hb hra hrb hea heb

theorem lowerConditional_generates (hec : Generates word Γ scope (l.lowerExpr c)) :
    Generates word Γ scope (l.lowerConditional c a b) := by
  unfold Lowering.lowerConditional
  rw [hT]
  refine hec.bind fun _ => hea.bind fun _ => heb.bind fun _ => ?_
  refine .answer (conditionalType_returns hw hΓ ha hb hp hra hrb)
    (conditionalType_answers (exprType_answers hw hΓ ha fuel) (exprType_answers hw hΓ hb fuel)
      (Expr.Typed.usual_answers hw hΓ ha hb fuel)) fun _ he => ?_
  obtain ⟨ty, rfl, ht⟩ := he
  exact (coerceScalar_generates hp ht).bind fun _ => (coerceScalar_generates hp ht).bind fun _ =>
    Generates.freshTemp.bind fun _ => .pure

theorem binary_generates {name : String} {bop : BinaryOp} (hn : binaryOp? name = some bop)
    (hr : HasResult word scope ((typing fuel).exprType (.binary name a b))) :
    Generates word Γ scope (l.lowerExprStep (.binary name a b)) := by
  have hplain {iop : BinOp} : Generates word Γ scope (l.lowerPlainBin iop a b) :=
    lowerPlainBin_generates hT hw hΓ hp ha hb hra hrb hea heb
  have hcmp {name : String} : Generates word Γ scope (l.lowerComparisonExpr name a b) :=
    lowerComparisonExpr_generates hT hw hΓ hp ha hb hra hrb hea heb
  have hdiv {name : String} : Generates word Γ scope (l.lowerDivision name a b) :=
    lowerDivision_generates hT hw hΓ hp ha hb hra hrb hea heb
  have hshift := lowerShiftExpr_generates hT hw hΓ hp ha hb hra hea heb hn hr
  unfold binaryOp? at hn
  split at hn <;> cases hn
  case h_1 => exact lowerAddExpr_generates hT hw hΓ hp ha hb hra hrb hea heb
  case h_2 => exact lowerSubExpr_generates hT hw hΓ hp ha hb hra hrb hea heb
  case h_4 | h_5 => exact hdiv
  case h_6 | h_7 => exact hshift
  case h_10 | h_11 | h_12 | h_13 => exact hcmp
  case h_17 | h_18 => exact lowerShortCircuit_generates hea heb
  all_goals exact hplain

end Operators

section Expressions

variable {l : Lowering} (hT : l.toTyping = typing fuel) (hp : 0 < fuel) (he : Generates word Γ scope (l.lowerExpr e))

include hT hp he

theorem promoted_generates (hw : word = 4 ∨ word = 8) (hΓ : Names Γ scope) (ht : Expr.Typed word Γ e t)
    (hr : HasResult word scope ((typing fuel).exprType e)) (op : String) (ho : op = "+" ∨ op = "-" ∨ op = "~") :
    Generates word Γ scope (l.lowerUnaryExpr op e) := by
  have hta := exprType_answers hw hΓ ht fuel
  have hr := promotedExprType_returns hp ht.not_float hta hr
  have ha := Expr.Typed.promoted_answers hw hΓ ht fuel
  rcases ho with rfl | rfl | rfl <;> unfold Lowering.lowerUnaryExpr <;> dsimp only <;> rw [hT]
  · refine he.bind fun _ => .answer hr ha fun _ hty => ?_
    exact (coerceScalar_generates hp hty).bind fun _ => .pure
  · refine he.bind fun _ => Generates.freshTemp.bind fun _ => Generates.freshTemp.bind fun _ => ?_
    refine .answer hr ha fun _ hty => ?_
    exact (coerceScalar_generates hp hty).bind fun _ => .pure
  · refine he.bind fun _ => Generates.freshTemp.bind fun _ => Generates.freshTemp.bind fun _ => ?_
    refine Generates.freshTemp.bind fun _ => .answer hr ha fun _ hty => ?_
    exact (coerceScalar_generates hp hty).bind fun _ => .pure

omit hT hp in
theorem not_generates : Generates word Γ scope (l.lowerUnaryExpr "!" e) :=
  he.bind fun _ => Generates.freshTemp.bind fun _ => Generates.freshTemp.bind fun _ => .pure

omit he in
theorem lowerSize_generates (ht : ty.Integer word t) : Generates word Γ scope (l.lowerSize ty) := by
  unfold Lowering.lowerSize
  rw [hT]
  exact .answer (typeSize_returns hp ht) (typeSize_answers ht) fun _ _ => Generates.freshTemp.bind fun _ => .pure

omit he in
theorem lowerVarExpr_generates {name : String} (hn : Γ name = some ty) (ht : ty.Integer word t) :
    Generates word Γ scope (l.lowerVarExpr name) := by
  intro st hs
  obtain ⟨hf, hb, hk⟩ := hs.named hn
  obtain ⟨temp, hl⟩ := hs.bound hn
  unfold Lowering.lowerVarExpr
  rw [hf, if_neg (by decide), hb]
  have hc : Generates word Γ scope ((typing fuel).coerceScalar ty (.temp temp)) := coerceScalar_generates hp ht
  obtain ⟨r, st', hr, hs'⟩ := hc hs
  refine ⟨r, st', ?_, hs'⟩
  refine run_value_bind_iff.mpr ⟨_, st, run_lookupConstant_iff.mpr ⟨rfl, rfl⟩, ?_⟩
  rw [hk]
  refine run_value_bind_iff.mpr ⟨_, st, run_lookupVarMaybe_iff.mpr ⟨rfl, rfl⟩, ?_⟩
  rw [hl]
  refine run_value_bind_iff.mpr ⟨_, st, run_lookupVarType_iff.mpr ⟨rfl, rfl⟩, ?_⟩
  rw [hl, hT]
  exact run_value_bind_iff.mpr ⟨ty, st, run_value_pure_iff.mpr ⟨rfl, rfl⟩, hr⟩

omit hT hp he in
-- The values of expressions are discarded by taking the code only.
theorem Expr.Typed.sideEffect (h : Expr.Typed word Γ e t) : l.lowerSideEffectStep e = Prod.fst <$> l.lowerExpr e := by
  cases h <;> rfl

omit hT hp he in
theorem lowerExpr_generates (hw : word = 4 ∨ word = 8) (hΓ : Names Γ scope) (h : Expr.Typed word Γ e t) :
    Enough fun fuel => Generates word Γ scope ((lowering fuel).lowerExpr e) := by
  have hpos : Enough (0 < ·) := .of Nat.succ_pos
  have hty {e : Expr} {t : IntType} (h : Expr.Typed word Γ e t) := exprType_returns hw hΓ h
  induction h
  case int           => exact .of fun _ => .pure
  case char          => exact .of fun _ => .pure
  case var hn ht     => exact hpos.step fun _ hp => lowerVarExpr_generates lowering_toTyping hp hn ht
  case sizeofType ht => exact hpos.step fun _ hp => lowerSize_generates lowering_toTyping hp ht
  case sizeofExpr he _ =>
    refine (hty he).step fun fuel h => ?_
    obtain ⟨hp, hr⟩ := h
    have ha := exprType_answers hw hΓ he fuel
    refine .answer (lowering_toTyping ▸ hr) (lowering_toTyping ▸ ha) fun _ hm => ?_
    obtain ⟨ty, rfl, ht⟩ := hm
    exact lowerSize_generates lowering_toTyping hp ht
  case cast ht he hi =>
    refine (hi.and hpos).step fun fuel h => h.left.bind fun _ => .bind ?_ fun _ => .pure
    rw [lowering_toTyping]
    exact coerceScalar_generates h.right ht
  case plus he hi =>
    refine (hi.and (hty he)).step fun fuel h => ?_
    obtain ⟨hi, hp, hr⟩ := h
    exact promoted_generates lowering_toTyping hp hi hw hΓ he hr _ (.inl rfl)
  case unary hn he hi =>
    refine (hi.and (hty he)).step fun fuel h => ?_
    obtain ⟨hi, hp, hr⟩ := h
    refine promoted_generates lowering_toTyping hp hi hw hΓ he hr _ (.inr ?_)
    unfold unaryOp? at hn
    split at hn
    · exact .inl rfl
    · exact .inr rfl
    · cases hn
  case not hi => exact hi.step fun _ hi => not_generates hi
  case binary hn ha hb hia hib =>
    refine (((hia.and hib).and ((hty ha).and (hty hb))).and (hty (.binary hn ha hb))).step fun fuel h => ?_
    obtain ⟨⟨⟨hea, heb⟩, ⟨hp, hra⟩, _, hrb⟩, _, hr⟩ := h
    exact binary_generates lowering_toTyping hw hΓ hp ha hb hra hrb hea heb hn hr
  case comma ha hb hia hib =>
    have hs := hia.step (q := fun fuel => Generates word Γ scope ((lowering fuel).lowerSideEffect _)) fun fuel hi => by
      rw [show (lowering (fuel + 1)).lowerSideEffect = (lowering fuel).lowerSideEffectStep from rfl, ha.sideEffect]
      exact hi.map
    exact (hs.and hib).step fun fuel h => h.left.bind fun _ => h.right.bind fun _ => .pure
  case cond hc ha hb hic hia hib =>
    refine ((hic.and (hia.and hib)).and ((hty ha).and (hty hb))).step fun fuel h => ?_
    obtain ⟨⟨hec, hea, heb⟩, ⟨hp, hra⟩, _, hrb⟩ := h
    exact lowerConditional_generates lowering_toTyping hw hΓ hp ha hb hra hrb hea heb hec

end Expressions

end Hcc
