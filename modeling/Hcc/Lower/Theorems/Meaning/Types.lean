import Hcc.Compile.Run
import Hcc.Library.Keeps
import Hcc.Lower.Meaning
import Hcc.Lower.Theorems.Integer
import Hcc.Lower.Theorems.Layout

open Stateful CInteger

-- The types that are computed for integer expressions are those of C.
namespace Hcc

variable {α β : Type} {word fuel : Nat} {scope : Scope} {act : ValueM α} {f : α → ValueM β} {p q : α → Prop} {r : β → Prop}
variable {ty ty' : CType} {s t u : IntType} {T : Typing} {Γ : String → Option CType} {e a b : Expr}

-- The results of a computation that leaves the state alone, for a target with words of this size.
def Answers (word : Nat) (scope : Scope) (act : ValueM α) (p : α → Prop) : Prop :=
  ∀ ⦃st⦄, targetLongSize st = word → Keeps (· = st) (act scope) p

namespace Answers

theorem pure {a : α} (h : p a) : Answers word scope (Pure.pure a) p :=
  fun _ _ => Keeps.pure h

theorem bind (ha : Answers word scope act p) (hf : ∀ a, p a → Answers word scope (f a) r) :
    Answers word scope (act >>= f) r :=
  fun _ hw => (ha hw).bind fun a h => hf a h hw

theorem mono (ha : Answers word scope act p) (h : ∀ a, p a → q a) : Answers word scope act q :=
  fun _ hw => (ha hw).mono h

theorem throw {msg : String} : Answers word scope (throw msg : ValueM α) p :=
  fun _ _ => Keeps.throw

theorem outOfFuel : Answers word scope (fun _ => Stateful.outOfFuel : ValueM α) p :=
  fun _ _ => Keeps.outOfFuel

theorem targetWordSize : Answers word scope Hcc.targetWordSize (· = word) := by
  rintro st hw _ n st' rfl hr
  obtain ⟨hn, rfl⟩ := run_pure_iff.mp hr
  refine ⟨?_, rfl⟩
  rw [←hn, ←hw, targetLongSize]
  split <;> rfl

theorem lookupVarType {name : String} (h : scopeMapLookup name scope = some v) :
    Answers word scope (Hcc.lookupVarType name) (· = some v.2) := by
  rintro st _ _ ty st' rfl hr
  obtain ⟨hn, rfl⟩ := run_lookupVarType_iff.mp hr
  rw [h] at hn
  exact ⟨hn.symm, rfl⟩

end Answers

section Integers

theorem CType.Integer.isIntegerType (h : ty.Integer word t) : isIntegerType ty = true := by
  obtain ⟨h, -⟩ := h
  cases ty
  case named name =>
    obtain ⟨n, hn, -⟩ := Option.map_eq_some_iff.mp h
    rw [Hcc.isIntegerType, hn]
    rfl
  all_goals first | rfl | cases h

theorem CType.Integer.isSignedIntegerType (h : ty.Integer word t) : isSignedIntegerType ty = !t.unsigned := by
  obtain ⟨h, -⟩ := h
  cases ty
  case named name =>
    obtain ⟨n, -, rfl⟩ := Option.map_eq_some_iff.mp h
    exact (Bool.not_not _).symm
  all_goals cases h <;> rfl

theorem CType.Integer.isUnsignedType (h : ty.Integer word t) : isUnsignedType ty = t.unsigned := by
  obtain ⟨h, -⟩ := h
  cases ty
  case named name =>
    obtain ⟨n, hn, rfl⟩ := Option.map_eq_some_iff.mp h
    rw [Hcc.isUnsignedType, hn]
    rfl
  all_goals cases h <;> rfl

theorem CType.Integer.scalar (h : ty.Integer word t) : pointerElementType (some ty) = none ∧ isFloatingType ty = false := by
  obtain ⟨h, -⟩ := h
  cases ty
  all_goals first | exact ⟨rfl, rfl⟩ | cases h

theorem typeSize_answers (h : ty.Integer word t) : Answers word scope ((typing fuel).typeSize ty) (· = t.size) := by
  obtain ⟨h, -⟩ := h
  cases fuel
  case zero => exact .outOfFuel
  case succ fuel =>
    show Answers word scope ((typing fuel).typeSizeStep ty) _
    cases ty
    case named name =>
      obtain ⟨n, hn, rfl⟩ := Option.map_eq_some_iff.mp h
      have he : (typing fuel).typeSizeStep (.named name) = Typing.targetNamedTypeSize name n := by
        rw [Typing.typeSizeStep, Typing.namedTypeSize, hn]
      rw [he, Typing.targetNamedTypeSize]
      split
      case isTrue  => exact .targetWordSize
      case isFalse =>
        refine .pure ?_
        have hm := namedIntegerSize_mem hn
        show n = (n.toNat : Int)
        have hn : 0 ≤ n := by
          simp only [List.mem_cons, List.not_mem_nil, or_false] at hm
          omega
        exact (Int.toNat_of_nonneg hn).symm
    all_goals first | (cases h; exact .pure rfl) | (cases h; exact .targetWordSize) | cases h

-- Words hold at least the values of `int`.
theorem promote_integer (hw : word = 4 ∨ word = 8) (h : ty.Integer word t) :
    Answers word scope ((typing fuel).promoteIntegerType ty) (·.Integer word t.promote) := by
  have hi : Answers word scope (isIntegerTypeM ty) (· = true) := .pure h.isIntegerType
  refine hi.bind fun _ he => ?_
  subst he
  refine (typeSize_answers h).bind fun size hs => .pure ?_
  subst hs
  by_cases hl : t.size < 4
  case pos =>
    rw [IntType.promote, if_pos hl, if_pos (by omega)]
    exact ⟨rfl, show 4 ≤ word by omega⟩
  case neg =>
    rw [IntType.promote, if_neg hl, if_neg (by omega)]
    exact h

theorem CType.Integer.size_mem (hw : word = 4 ∨ word = 8) (h : ty.Integer word t) : t.size ∈ [1, 2, 4, 8] := by
  obtain ⟨h, hl⟩ := h
  cases ty
  case named name =>
    obtain ⟨n, hn, rfl⟩ := Option.map_eq_some_iff.mp h
    have hm := namedIntegerSize_mem hn
    simp only [List.mem_cons, List.not_mem_nil, or_false] at hm ⊢
    dsimp only at hl ⊢
    split at hl
    case isTrue hn  => rw [if_pos hn]; omega
    case isFalse hn => rw [if_neg hn]; omega
  all_goals cases h <;> simp [hw]

end Integers

section Conversions

-- The types that all others are converted to.
def CType.Standard (ty : CType) : Prop :=
  ty ∈ [CType.int, .unsigned, .long, .unsignedLong, .longLong, .unsignedLongLong]

theorem CType.Standard.cases (h : ty.Standard) : ty = .int ∨ ty = .unsigned ∨ ty = .long ∨ ty = .unsignedLong ∨
    ty = .longLong ∨ ty = .unsignedLongLong := by
  simpa [CType.Standard] using h

theorem canonicalIntegerType_answers (hw : word = 4 ∨ word = 8) (h : ty.Integer word t) (hl : 4 ≤ t.size) :
    Answers word scope ((typing fuel).canonicalIntegerType ty) fun ty => ty.Standard ∧ ty.Integer word t := by
  have hi : Answers word scope (isIntegerTypeM ty) (· = true) := .pure h.isIntegerType
  refine hi.bind fun _ he => ?_
  subst he
  rw [if_pos rfl]
  split
  case h_7 =>
    refine (typeSize_answers h).bind fun size hs => Answers.targetWordSize.bind fun _ he => .pure ?_
    subst hs he
    have hm := h.size_mem hw
    have hle := h.right
    simp only [List.mem_cons, List.not_mem_nil, or_false] at hm
    rw [h.isUnsignedType, canonicalIntegerBySize]
    obtain ⟨size, unsigned⟩ := t
    dsimp only at *
    by_cases h4 : size ≤ 4
    case pos =>
      obtain rfl : size = 4 := by omega
      cases unsigned <;> exact ⟨by simp [CType.Standard], rfl, hle⟩
    case neg =>
      obtain rfl : size = 8 := by omega
      obtain rfl : word = 8 := by omega
      cases unsigned <;> exact ⟨by simp [CType.Standard], rfl, hle⟩
  all_goals exact .pure ⟨by simp [CType.Standard], h⟩

theorem CType.Standard.eq_of_kind (h : ty.Standard) (h' : ty'.Standard) (he : integerKindId ty = integerKindId ty') :
    ty = ty' := by
  rcases h.cases with rfl | rfl | rfl | rfl | rfl | rfl <;>
    rcases h'.cases with rfl | rfl | rfl | rfl | rfl | rfl <;> first | rfl | exact absurd he (by decide)

-- Types of a higher rank are not narrower.
theorem CType.Standard.size_le (hw : word = 4 ∨ word = 8) (h : ty.Standard) (h' : ty'.Standard) (ht : ty.Integer word s)
    (ht' : ty'.Integer word t) (hr : integerRank ty ≤ integerRank ty') : s.size ≤ t.size := by
  obtain ⟨ht, -⟩ := ht
  obtain ⟨ht', -⟩ := ht'
  rcases h.cases with rfl | rfl | rfl | rfl | rfl | rfl <;> cases ht <;>
    rcases h'.cases with rfl | rfl | rfl | rfl | rfl | rfl <;> cases ht' <;> simp [integerRank] at * <;> omega

theorem CType.Standard.correspondingUnsigned (h : ty.Standard) (ht : ty.Integer word s) :
    (correspondingUnsigned ty).Integer word ⟨s.size, true⟩ := by
  obtain ⟨ht, hl⟩ := ht
  rcases h.cases with rfl | rfl | rfl | rfl | rfl | rfl <;> cases ht <;> exact ⟨rfl, hl⟩

-- The conversion of a signed and an unsigned type.
theorem mixed_answers (hw : word = 4 ∨ word = 8) (hs : ty.Standard) (hu : ty'.Standard) (ha : ty.Integer word s)
    (hb : ty'.Integer word t) (ht : t.unsigned = true) : Answers word scope (
      if integerRank ty' ≥ integerRank ty then return ty'
      else do
        let signedSize ← (typing fuel).typeSize ty
        let unsignedSize ← (typing fuel).typeSize ty'
        return if signedSize > unsignedSize then ty else correspondingUnsigned ty)
      (·.Integer word (if s.size ≤ t.size then t else s)) := by
  split
  case isTrue hr =>
    rw [if_pos <| hs.size_le hw hu ha hb hr]
    exact .pure hb
  case isFalse hr =>
    have hl : t.size ≤ s.size := hu.size_le hw hs hb ha (by omega)
    refine (typeSize_answers ha).bind fun _ he => (typeSize_answers hb).bind fun _ he' => .pure ?_
    subst he he'
    by_cases h : s.size ≤ t.size
    case pos =>
      have he : t = ⟨s.size, true⟩ := IntType.ext (by show t.size = s.size; omega) ht
      rw [if_pos h, if_neg (by omega), he]
      exact hs.correspondingUnsigned ha
    case neg =>
      rw [if_neg h, if_pos (by omega)]
      exact ha

theorem usualArithmeticTypes_answers (hw : word = 4 ∨ word = 8) (ha : ty.Integer word s) (hb : ty'.Integer word t)
    (hs : 4 ≤ s.size) (ht : 4 ≤ t.size) :
    Answers word scope ((typing fuel).usualArithmeticTypes ty ty') (·.Integer word (s.common t)) := by
  unfold Typing.usualArithmeticTypes
  rw [ha.scalar.right, hb.scalar.right, Bool.or_self, if_neg (by decide)]
  refine (canonicalIntegerType_answers hw ha hs).bind fun ty ⟨hty, ha⟩ => ?_
  refine (canonicalIntegerType_answers hw hb ht).bind fun ty' ⟨hty', hb⟩ => ?_
  rw [ha.isUnsignedType, hb.isUnsignedType, IntType.common]
  split
  case isTrue hk =>
    obtain rfl := hty.eq_of_kind hty' hk
    obtain rfl := Option.some.inj <| ha.left.symm.trans hb.left
    rw [if_pos rfl, ite_self]
    exact .pure ha
  case isFalse =>
    by_cases hu : s.unsigned = t.unsigned
    case pos =>
      rw [if_pos hu, if_pos hu]
      refine .pure ?_
      rw [higherRankType]
      split
      case isTrue hr =>
        rw [if_pos <| hty'.size_le hw hty hb ha hr]
        exact ha
      case isFalse hr =>
        have hl := hty.size_le hw hty' ha hb (by omega)
        by_cases h : t.size ≤ s.size
        case pos =>
          have he : s = t := IntType.ext (by omega) hu
          rw [if_pos h, he]
          exact hb
        case neg =>
          rw [if_neg h]
          exact hb
    case neg =>
      rw [if_neg hu, if_neg hu]
      cases hsu : s.unsigned
      case false =>
        have htu : t.unsigned = true := by
          rw [hsu] at hu
          exact (Bool.eq_true_of_not_eq_false <| Ne.symm hu)
        exact mixed_answers hw hty hty' ha hb htu
      case true  => exact mixed_answers hw hty' hty hb ha hsu

end Conversions

section Expressions

-- The type of an expression is known.
def Types (word : Nat) (t : IntType) (mty : Option CType) : Prop :=
  ∃ ty, mty = some ty ∧ ty.Integer word t

theorem promote_size : 4 ≤ t.promote.size := by
  unfold IntType.promote
  split
  case isTrue  => exact le_rfl
  case isFalse => omega

theorem promotedExprType_answers (hw : word = 4 ∨ word = 8) (hf : ∀ text, e ≠ .float text)
    (h : Answers word scope ((typing fuel).exprType e) (Types word t)) :
    Answers word scope ((typing fuel).promotedExprType e) (·.Integer word t.promote) := by
  unfold Typing.promotedExprType
  split
  case h_1 => exact absurd rfl <| hf _
  case h_2 =>
    refine h.bind fun _ ⟨ty, he, ht⟩ => ?_
    subst he
    exact promote_integer hw ht

theorem usualArithmeticType_answers (hw : word = 4 ∨ word = 8)
    (ha : Answers word scope ((typing fuel).promotedExprType a) (·.Integer word s.promote))
    (hb : Answers word scope ((typing fuel).promotedExprType b) (·.Integer word t.promote)) :
    Answers word scope ((typing fuel).usualArithmeticType a b) (·.Integer word (s.promote.common t.promote)) :=
  ha.bind fun _ ha => hb.bind fun _ hb => usualArithmeticTypes_answers hw ha hb promote_size promote_size

theorem Types.pointer {mty : Option CType} (h : Types word t mty) : pointerElementType mty = none := by
  obtain ⟨ty, rfl, h⟩ := h
  exact h.scalar.left

theorem binaryType_answers {name : String} {op : BinaryOp} (hw : word = 4 ∨ word = 8) (ho : binaryOp? name = some op)
    (ha : Answers word scope ((typing fuel).exprType a) (Types word s))
    (hb : Answers word scope ((typing fuel).exprType b) (Types word t))
    (hu : Answers word scope ((typing fuel).usualArithmeticType a b) (·.Integer word (s.promote.common t.promote))) :
    Answers word scope ((typing fuel).binaryType name a b) (Types word (op.resultType s.promote t.promote)) := by
  have hint : Answers word scope (pure (some CType.int)) (Types word .int) :=
    .pure ⟨_, rfl, rfl, show 4 ≤ word by omega⟩
  have harith {g : Option CType → Option CType → CType → Option CType}
      (hg : ∀ l r ty, Types word s l → Types word t r → g l r ty = some ty) :
      Answers word scope (do
        let leftTy ← (typing fuel).exprType a
        let rightTy ← (typing fuel).exprType b
        let arithmeticTy ← (typing fuel).usualArithmeticType a b
        return g leftTy rightTy arithmeticTy) (Types word (s.promote.common t.promote)) :=
    ha.bind fun l hl => hb.bind fun r hr => hu.bind fun ty hty => .pure ⟨ty, hg l r ty hl hr, hty⟩
  have hshift : Answers word scope
      ((typing fuel).exprType a >>= fun mty => (typing fuel).promoteMaybeIntegerType mty) (Types word s.promote) := by
    refine ha.bind fun _ ⟨ty, he, ht⟩ => ?_
    subst he
    exact (promote_integer hw ht).bind fun ty' ht => .pure ⟨ty', rfl, ht⟩
  have hadd (l r : Option CType) (ty : CType) (hl : Types word s l) (hr : Types word t r) :
      addExprResultType l r ty = some ty := by
    rw [addExprResultType, hl.pointer, hr.pointer]
  have hsub (l r : Option CType) (ty : CType) (hl : Types word s l) (_ : Types word t r) :
      subExprResultType l r ty = some ty := by
    rw [subExprResultType, hl.pointer]
  unfold binaryOp? at ho
  split at ho <;> cases ho
  case h_1 => exact harith hadd
  case h_2 => exact harith hsub
  case h_6 => exact hshift
  case h_7 => exact hshift
  all_goals first
    | exact hint
    | exact harith (g := fun _ _ ty => some ty) fun _ _ _ _ _ => rfl

theorem conditionalType_answers
    (ha : Answers word scope ((typing fuel).exprType a) (Types word s))
    (hb : Answers word scope ((typing fuel).exprType b) (Types word t))
    (hu : Answers word scope ((typing fuel).usualArithmeticType a b) (·.Integer word (s.promote.common t.promote))) :
    Answers word scope ((typing fuel).conditionalType a b) (Types word (s.promote.common t.promote)) := by
  refine ha.bind fun _ ⟨ty, he, ht⟩ => hb.bind fun _ ⟨ty', he', ht'⟩ => ?_
  subst he he'
  have hi : Answers word scope (isIntegerTypeM ty) (· = true) := .pure ht.isIntegerType
  have hi' : Answers word scope (isIntegerTypeM ty') (· = true) := .pure ht'.isIntegerType
  refine hi.bind fun _ he => hi'.bind fun _ he' => ?_
  subst he he'
  exact hu.bind fun ty hty => .pure ⟨ty, rfl, hty⟩

-- The variables of the source are in scope.
def Names (Γ : String → Option CType) (scope : Scope) : Prop :=
  ∀ {name ty}, Γ name = some ty → isFunctionNameMacro name = false ∧ ∃ temp, scopeMapLookup name scope = some (temp, ty)

theorem Expr.Typed.not_float (h : Expr.Typed word Γ e t) (text : List Char) : e ≠ .float text := by
  rintro rfl
  cases h

theorem size_t_integer (hw : word = 4 ∨ word = 8) : (CType.named "size_t").Integer word ⟨word, true⟩ := by
  rcases hw with rfl | rfl <;> exact ⟨rfl, le_rfl⟩

theorem literalType_integer (h : ty.Standard) (hl : (literalType word ty).size ≤ word) :
    ty.Integer word (literalType word ty) := by
  rcases h.cases with rfl | rfl | rfl | rfl | rfl | rfl <;> exact ⟨rfl, hl⟩

theorem exprType_answers (hw : word = 4 ∨ word = 8) (hΓ : Names Γ scope) (h : Expr.Typed word Γ e t) (fuel : Nat) :
    Answers word scope ((typing fuel).exprType e) (Types word t) := by
  have hint : Answers word scope (pure (some CType.int)) (Types word .int) :=
    .pure ⟨_, rfl, rfl, show 4 ≤ word by omega⟩
  induction h generalizing fuel
  all_goals
    cases fuel
    case zero => exact .outOfFuel
  case int.succ hi hx hl fuel =>
    rintro st hw' _ mty st' rfl hr
    obtain ⟨ty, hr', rfl⟩ := run_value_map_iff.mp hr
    rw [Run, hi.type, if_pos hx, hw'] at hr'
    obtain ⟨rfl, rfl⟩ := Prod.mk.inj <| Except.ok.inj <| Fueled.done_inj.mp hr'
    exact ⟨⟨_, rfl, literalType_integer firstType_standard hl⟩, rfl⟩
  case char.succ       => exact hint
  case var.succ name ty t hn ht fuel =>
    obtain ⟨hm, temp, hs⟩ := hΓ hn
    have he : (typing (fuel + 1)).exprType (.var name) = Typing.varType name := rfl
    rw [he, Typing.varType, hm, if_neg (by decide)]
    refine (Answers.lookupVarType hs).bind fun _ he => ?_
    subst he
    exact .pure ⟨ty, rfl, ht⟩
  case sizeofType.succ => exact .pure ⟨_, rfl, size_t_integer hw⟩
  case sizeofExpr.succ => exact .pure ⟨_, rfl, size_t_integer hw⟩
  case cast.succ ht _ _ _ => exact .pure ⟨_, rfl, ht⟩
  case plus.succ he hi fuel =>
    exact (promotedExprType_answers hw he.not_float (hi fuel)).bind fun ty ht => .pure ⟨ty, rfl, ht⟩
  case unary.succ ho he hi fuel =>
    have hp := promotedExprType_answers hw he.not_float (hi fuel)
    unfold unaryOp? at ho
    split at ho <;> cases ho <;> exact hp.bind fun ty ht => .pure ⟨ty, rfl, ht⟩
  case not.succ        => exact hint
  case binary.succ ho ha hb hia hib fuel =>
    have hpa := promotedExprType_answers hw ha.not_float (hia fuel)
    have hpb := promotedExprType_answers hw hb.not_float (hib fuel)
    exact binaryType_answers hw ho (hia fuel) (hib fuel) (usualArithmeticType_answers hw hpa hpb)
  case comma.succ hib fuel => exact hib fuel
  case cond.succ ha hb _ hia hib fuel =>
    have hpa := promotedExprType_answers hw ha.not_float (hia fuel)
    have hpb := promotedExprType_answers hw hb.not_float (hib fuel)
    exact conditionalType_answers (hia fuel) (hib fuel) (usualArithmeticType_answers hw hpa hpb)

end Expressions
end Hcc
