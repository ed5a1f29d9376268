import Hcc.Library.Enough
import Hcc.Lower.Theorems.Meaning.Types

open Stateful Fueled CInteger

-- The types of integer expressions are found without errors.
namespace Hcc

variable {α β : Type} {word fuel : Nat} {scope : Scope} {act : ValueM α} {f : α → ValueM β} {p : α → Prop}
variable {ty ty' : CType} {s t : IntType} {st : ValueState} {Γ : String → Option CType} {e a b : Expr}

-- The computation has a result.
def HasResult (word : Nat) (scope : Scope) (act : ValueM α) : Prop :=
  ∀ ⦃st⦄, targetLongSize st = word → ∃ a st', Run (act scope) st a st'

namespace HasResult

theorem pure {a : α} : HasResult word scope (Pure.pure a) :=
  fun st _ => ⟨a, st, run_value_pure_iff.mpr ⟨rfl, rfl⟩⟩

theorem bind (h : HasResult word scope act) (ha : Answers word scope act p)
    (hf : ∀ a, p a → HasResult word scope (f a)) : HasResult word scope (act >>= f) := by
  intro st hw
  obtain ⟨a, st₁, hr⟩ := h hw
  obtain ⟨hp, rfl⟩ := ha hw rfl hr
  obtain ⟨b, st', hr'⟩ := hf a hp hw
  exact ⟨b, st', run_value_bind_iff.mpr ⟨a, _, hr, hr'⟩⟩

theorem targetWordSize : HasResult word scope Hcc.targetWordSize :=
  fun _ _ => ⟨_, _, rfl⟩

theorem lookupVarType {name : String} : HasResult word scope (Hcc.lookupVarType name) :=
  fun _ _ => ⟨_, _, run_lookupVarType_iff.mpr ⟨rfl, rfl⟩⟩

end HasResult

section Integers

theorem isIntegerTypeM_answers (h : ty.Integer word t) : Answers word scope (isIntegerTypeM ty) (· = true) :=
  .pure h.isIntegerType

theorem typeSize_returns (hp : 0 < fuel) (h : ty.Integer word t) :
    HasResult word scope ((typing fuel).typeSize ty) := by
  obtain ⟨h, -⟩ := h
  obtain ⟨fuel, rfl⟩ := Nat.exists_eq_succ_of_ne_zero (Nat.ne_of_gt hp)
  show HasResult word scope ((typing fuel).typeSizeStep ty)
  cases ty
  case named name =>
    obtain ⟨n, hn, rfl⟩ := Option.map_eq_some_iff.mp h
    have he : (typing fuel).typeSizeStep (.named name) = Typing.targetNamedTypeSize name n := by
      rw [Typing.typeSizeStep, Typing.namedTypeSize, hn]
    rw [he, Typing.targetNamedTypeSize]
    split
    case isTrue  => exact .targetWordSize
    case isFalse => exact .pure
  all_goals first
    | exact .pure
    | exact .targetWordSize
    | cases h

theorem promoteIntegerType_returns (hp : 0 < fuel) (h : ty.Integer word t) :
    HasResult word scope ((typing fuel).promoteIntegerType ty) := by
  refine HasResult.pure.bind (isIntegerTypeM_answers h) fun _ he => ?_
  subst he
  exact (typeSize_returns hp h).bind (typeSize_answers h) fun _ _ => .pure

theorem canonicalIntegerType_returns (hp : 0 < fuel) (h : ty.Integer word t) :
    HasResult word scope ((typing fuel).canonicalIntegerType ty) := by
  refine HasResult.pure.bind (isIntegerTypeM_answers h) fun _ he => ?_
  subst he
  rw [if_pos rfl]
  split
  case h_7 =>
    exact (typeSize_returns hp h).bind (typeSize_answers h) fun _ _ =>
      HasResult.targetWordSize.bind .targetWordSize fun _ _ => .pure
  all_goals exact .pure

theorem usualArithmeticTypes_returns (hp : 0 < fuel) (hw : word = 4 ∨ word = 8) (ha : ty.Integer word s)
    (hb : ty'.Integer word t) (hs : 4 ≤ s.size) (ht : 4 ≤ t.size) :
    HasResult word scope ((typing fuel).usualArithmeticTypes ty ty') := by
  have hmixed {ty ty' : CType} {s t : IntType} (ha : ty.Integer word s) (hb : ty'.Integer word t) :
      HasResult word scope (
        if integerRank ty' ≥ integerRank ty then return ty'
        else do
          let signedSize ← (typing fuel).typeSize ty
          let unsignedSize ← (typing fuel).typeSize ty'
          return if signedSize > unsignedSize then ty else correspondingUnsigned ty) := by
    split
    case isTrue  => exact .pure
    case isFalse =>
      exact (typeSize_returns hp ha).bind (typeSize_answers ha) fun _ _ =>
        (typeSize_returns hp hb).bind (typeSize_answers hb) fun _ _ => .pure
  unfold Typing.usualArithmeticTypes
  rw [ha.scalar.right, hb.scalar.right, Bool.or_self, if_neg (by decide)]
  refine (canonicalIntegerType_returns hp ha).bind (canonicalIntegerType_answers hw ha hs) fun ty h => ?_
  refine (canonicalIntegerType_returns hp hb).bind (canonicalIntegerType_answers hw hb ht) fun ty' h' => ?_
  split_ifs
  · exact .pure
  · exact .pure
  · exact hmixed h'.right h.right
  · exact hmixed h.right h'.right

end Integers

section Expressions

theorem promotedExprType_returns (hp : 0 < fuel) (hf : ∀ text, e ≠ .float text)
    (h : Answers word scope ((typing fuel).exprType e) (Types word t))
    (hr : HasResult word scope ((typing fuel).exprType e)) :
    HasResult word scope ((typing fuel).promotedExprType e) := by
  unfold Typing.promotedExprType
  split
  case h_1 => exact absurd rfl <| hf _
  case h_2 =>
    refine hr.bind h fun _ he => ?_
    obtain ⟨ty, he, ht⟩ := he
    subst he
    exact promoteIntegerType_returns hp ht

section Operands

variable (hw : word = 4 ∨ word = 8) (hΓ : Names Γ scope) (ha : Expr.Typed word Γ a s) (hb : Expr.Typed word Γ b t)

section
include hw hΓ

theorem Expr.Typed.promoted_answers (h : Expr.Typed word Γ e t) (fuel : Nat) :
    Answers word scope ((typing fuel).promotedExprType e) (·.Integer word t.promote) :=
  promotedExprType_answers hw h.not_float <| exprType_answers hw hΓ h fuel

include ha hb

theorem Expr.Typed.usual_answers (fuel : Nat) : Answers word scope ((typing fuel).usualArithmeticType a b)
    (·.Integer word (s.promote.common t.promote)) :=
  usualArithmeticType_answers hw (promoted_answers hw hΓ ha fuel) (promoted_answers hw hΓ hb fuel)

theorem Expr.Typed.comparison_answers (fuel : Nat) : Answers word scope ((typing fuel).comparisonOperandType a b)
    (·.Integer word (s.promote.common t.promote)) := by
  refine (exprType_answers hw hΓ ha fuel).bind fun _ hta => (exprType_answers hw hΓ hb fuel).bind fun _ htb => ?_
  rw [hta.pointer, htb.pointer]
  exact usual_answers hw hΓ ha hb fuel

end

variable (hp : 0 < fuel)
variable (hra : HasResult word scope ((typing fuel).exprType a)) (hrb : HasResult word scope ((typing fuel).exprType b))
include hw hΓ hp ha hb hra hrb

theorem usualArithmeticType_returns : HasResult word scope ((typing fuel).usualArithmeticType a b) := by
  refine (promotedExprType_returns hp ha.not_float (exprType_answers hw hΓ ha fuel) hra).bind
    (Expr.Typed.promoted_answers hw hΓ ha fuel) fun _ hs => ?_
  refine (promotedExprType_returns hp hb.not_float (exprType_answers hw hΓ hb fuel) hrb).bind
    (Expr.Typed.promoted_answers hw hΓ hb fuel) fun _ ht => ?_
  exact usualArithmeticTypes_returns hp hw hs ht promote_size promote_size

theorem comparisonOperandType_returns : HasResult word scope ((typing fuel).comparisonOperandType a b) := by
  refine hra.bind (exprType_answers hw hΓ ha fuel) fun _ hta => ?_
  refine hrb.bind (exprType_answers hw hΓ hb fuel) fun _ htb => ?_
  rw [hta.pointer, htb.pointer]
  exact usualArithmeticType_returns hw hΓ ha hb hp hra hrb

theorem binaryType_returns {name : String} {op : BinaryOp} (hn : binaryOp? name = some op) :
    HasResult word scope ((typing fuel).binaryType name a b) := by
  have hta := exprType_answers hw hΓ ha fuel
  have htb := exprType_answers hw hΓ hb fuel
  have hu := Expr.Typed.usual_answers hw hΓ ha hb fuel
  have harith {g : Option CType → Option CType → CType → Option CType} : HasResult word scope (do
      let leftTy ← (typing fuel).exprType a
      let rightTy ← (typing fuel).exprType b
      let arithmeticTy ← (typing fuel).usualArithmeticType a b
      return g leftTy rightTy arithmeticTy) := by
    refine hra.bind hta fun _ _ => hrb.bind htb fun _ _ => ?_
    exact (usualArithmeticType_returns hw hΓ ha hb hp hra hrb).bind hu fun _ _ => .pure
  have hshift : HasResult word scope
      ((typing fuel).exprType a >>= fun mty => (typing fuel).promoteMaybeIntegerType mty) := by
    refine hra.bind hta fun _ he => ?_
    obtain ⟨ty, he, ht⟩ := he
    subst he
    exact (promoteIntegerType_returns hp ht).bind (promote_integer hw ht) fun _ _ => .pure
  unfold binaryOp? at hn
  split at hn <;> cases hn
  case h_1 => exact harith
  case h_2 => exact harith
  case h_6 => exact hshift
  case h_7 => exact hshift
  all_goals first
    | exact .pure
    | exact harith (g := fun _ _ ty => some ty)

theorem conditionalType_returns : HasResult word scope ((typing fuel).conditionalType a b) := by
  have hta := exprType_answers hw hΓ ha fuel
  have htb := exprType_answers hw hΓ hb fuel
  refine hra.bind hta fun _ he => hrb.bind htb fun _ he' => ?_
  obtain ⟨ty, he, ht⟩ := he
  obtain ⟨ty', he', ht'⟩ := he'
  subst he he'
  refine HasResult.pure.bind (isIntegerTypeM_answers ht) fun _ he => ?_
  refine HasResult.pure.bind (isIntegerTypeM_answers ht') fun _ he' => ?_
  subst he he'
  have hu := Expr.Typed.usual_answers hw hΓ ha hb fuel
  exact (usualArithmeticType_returns hw hΓ ha hb hp hra hrb).bind hu fun _ _ => .pure

end Operands

theorem exprType_returns (hw : word = 4 ∨ word = 8) (hΓ : Names Γ scope) (h : Expr.Typed word Γ e t) :
    Enough fun fuel => 0 < fuel ∧ HasResult word scope ((typing fuel).exprType e) := by
  induction h
  case int hi hx hl =>
    refine .of fun fuel => ⟨Nat.succ_pos _, fun st hst => ?_⟩
    have hr := hi.type scope st
    rw [if_pos hx] at hr
    exact ⟨_, st, run_value_map_iff.mpr ⟨_, hr, rfl⟩⟩
  case char => exact .of fun _ => ⟨Nat.succ_pos _, .pure⟩
  case var name ty t hn ht =>
    refine .of fun fuel => ⟨Nat.succ_pos _, ?_⟩
    obtain ⟨hm, temp, hs⟩ := hΓ hn
    have he : (typing (fuel + 1)).exprType (.var name) = Typing.varType name := rfl
    rw [he, Typing.varType, hm, if_neg (by decide)]
    refine HasResult.lookupVarType.bind (.lookupVarType hs) fun _ he => ?_
    subst he
    exact .pure
  case sizeofType => exact .of fun _ => ⟨Nat.succ_pos _, .pure⟩
  case sizeofExpr => exact .of fun _ => ⟨Nat.succ_pos _, .pure⟩
  case cast       => exact .of fun _ => ⟨Nat.succ_pos _, .pure⟩
  case plus he hi =>
    refine hi.step fun fuel h => ⟨Nat.succ_pos _, ?_⟩
    obtain ⟨hp, hr⟩ := h
    have hta := exprType_answers hw hΓ he fuel
    exact (promotedExprType_returns hp he.not_float hta hr).bind (Expr.Typed.promoted_answers hw hΓ he fuel)
      fun _ _ => .pure
  case unary hn he hi =>
    refine hi.step fun fuel h => ⟨Nat.succ_pos _, ?_⟩
    obtain ⟨hp, hr⟩ := h
    have hta := exprType_answers hw hΓ he fuel
    have hr := (promotedExprType_returns hp he.not_float hta hr).bind (Expr.Typed.promoted_answers hw hΓ he fuel)
      (f := fun ty => pure (some ty)) fun _ _ => .pure
    unfold unaryOp? at hn
    split at hn <;> cases hn <;> exact hr
  case not => exact .of fun _ => ⟨Nat.succ_pos _, .pure⟩
  case binary hn ha hb hia hib =>
    refine (hia.and hib).step fun fuel h => ⟨Nat.succ_pos _, ?_⟩
    obtain ⟨⟨hp, hra⟩, -, hrb⟩ := h
    exact binaryType_returns hw hΓ ha hb hp hra hrb hn
  case comma hib => exact hib.step fun fuel h => ⟨Nat.succ_pos _, h.right⟩
  case cond ha hb _ hia hib =>
    refine (hia.and hib).step fun fuel h => ⟨Nat.succ_pos _, ?_⟩
    obtain ⟨⟨hp, hra⟩, -, hrb⟩ := h
    exact conditionalType_returns hw hΓ ha hb hp hra hrb

end Expressions

section Example

def magnitudeVars (name : String) : Option CType :=
  if name = "x" then some .int else none

def magnitudeScope : Scope :=
  scopeMapInsert "x" (⟨0⟩, .int) (scopeMapEnter scopeMapEmpty)

theorem magnitude_names : Names magnitudeVars magnitudeScope := by
  intro name ty h
  unfold magnitudeVars at h
  split at h <;> cases h
  subst ‹name = "x"›
  exact ⟨by decide +kernel, ⟨0⟩, rfl⟩

end Example
end Hcc
