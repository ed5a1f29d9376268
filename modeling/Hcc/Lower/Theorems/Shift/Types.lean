import Hcc.Lower.Theorems.Steady.Types

open Stateful

namespace Hcc

variable {α β : Type} {st st' : ValueState} {k : Nat}

-- The state with another number of temporaries.
def ValueState.withTemps (st : ValueState) (k : Nat) : ValueState :=
  { st with nextTemp := k }

-- The second computation has all results of the first one, however many temporaries there are.
def Same (m m' : ValueM α) : Prop :=
  ∀ ⦃scope st a st'⦄, Run (m scope) st a st' → st'.nextTemp = st.nextTemp ∧
    ∀ k, Run (m' scope) (st.withTemps k) a (st'.withTemps k)

namespace Same

variable {m m' : ValueM α} {f f' : α → ValueM β}

@[grind ←]
theorem pure {a : α} : Same (pure a) (pure a) := by
  intro _ st _ _ hr
  obtain ⟨rfl, rfl⟩ := run_value_pure_iff.mp hr
  exact ⟨rfl, fun _ => rfl⟩

@[grind ←]
theorem throw {msg : String} {m' : ValueM α} : Same (throw msg) m' :=
  fun _ _ _ _ hr => absurd hr not_run_throw

theorem outOfFuel : Same (fun _ => Stateful.outOfFuel) m' :=
  fun _ _ _ _ hr => absurd hr not_run_outOfFuel

@[grind ←]
theorem bind (hm : Same m m') (hf : ∀ a, Same (f a) (f' a)) : Same (m >>= f) (m' >>= f') := by
  intro _ _ _ _ hr
  have ⟨_, _, hr, hr'⟩ := run_value_bind_iff.mp hr
  have ⟨hn, hm⟩ := hm hr
  have ⟨hn', hf⟩ := hf _ hr'
  exact ⟨hn'.trans hn, fun k => run_value_bind_iff.mpr ⟨_, _, hm k, hf k⟩⟩

@[grind ←]
theorem map {g : α → β} (hm : Same m m') : Same (g <$> m) (g <$> m') := by
  rw [map_eq_pure_bind, map_eq_pure_bind]
  exact hm.bind fun _ => .pure

-- A query of the state, or a change of it, that does not involve temporaries.
theorem step {g : Scope → ValueState → α} {u : ValueState → ValueState}
    (hm : ∀ scope st, m scope st = Fueled.done (.ok (g scope st, u st)))
    (hg : ∀ scope st k, g scope (st.withTemps k) = g scope st)
    (hu : ∀ st k, u (st.withTemps k) = (u st).withTemps k) (hn : ∀ st, (u st).nextTemp = st.nextTemp) :
    Same m m := by
  intro scope st a st' hr
  rw [Run, hm] at hr
  obtain ⟨rfl, rfl⟩ := Prod.mk.inj <| Except.ok.inj <| Fueled.done_inj.mp hr
  refine ⟨hn st, fun k => ?_⟩
  rw [Run, hm, hg, hu]

theorem query {g : Scope → ValueState → α} (hm : ∀ scope st, m scope st = Fueled.done (.ok (g scope st, st)))
    (hg : ∀ scope st k, g scope (st.withTemps k) = g scope st) : Same m m :=
  .step hm hg (fun _ _ => rfl) fun _ => rfl

theorem change {m : ValueM Unit} {u : ValueState → ValueState}
    (hm : ∀ scope st, m scope st = Fueled.done (.ok ((), u st)))
    (hu : ∀ st k, u (st.withTemps k) = (u st).withTemps k) (hn : ∀ st, (u st).nextTemp = st.nextTemp) :
    Same m m :=
  .step hm (fun _ _ _ => rfl) hu hn

end Same

section State

@[grind ←]
theorem bindStruct_same (name isUnion fields) : Same (bindStruct name isUnion fields) (bindStruct name isUnion fields) :=
  .change (fun _ _ => rfl) (fun _ _ => rfl) fun _ => rfl

@[grind ←]
theorem cacheStructSize_same (name size) : Same (cacheStructSize name size) (cacheStructSize name size) :=
  .change (fun _ _ => rfl) (fun _ _ => rfl) fun _ => rfl

@[grind ←]
theorem cacheStructMember_same (structName fieldName info) :
    Same (cacheStructMember structName fieldName info) (cacheStructMember structName fieldName info) :=
  .change (fun _ _ => rfl) (fun _ _ => rfl) fun _ => rfl

@[grind ←]
theorem targetWordSize_same : Same targetWordSize targetWordSize :=
  .query (fun _ _ => rfl) fun _ _ _ => rfl

@[grind ←]
theorem currentFunctionName_same : Same currentFunctionName currentFunctionName :=
  .query (fun _ _ => rfl) fun _ _ _ => rfl

@[grind ←]
theorem lookupVarType_same (name) : Same (lookupVarType name) (lookupVarType name) :=
  .query (fun _ _ => rfl) fun _ _ _ => rfl

@[grind ←]
theorem lookupGlobalType_same (name) : Same (lookupGlobalType name) (lookupGlobalType name) :=
  .query (fun _ _ => rfl) fun _ _ _ => rfl

@[grind ←]
theorem lookupConstant_same (name) : Same (lookupConstant name) (lookupConstant name) :=
  .query (fun _ _ => rfl) fun _ _ _ => rfl

@[grind ←]
theorem lookupFunction_same (name) : Same (lookupFunction name) (lookupFunction name) :=
  .query (fun _ _ => rfl) fun _ _ _ => rfl

@[grind ←]
theorem lookupFunctionType_same (name) : Same (lookupFunctionType name) (lookupFunctionType name) :=
  .query (fun _ _ => rfl) fun _ _ _ => rfl

@[grind ←]
theorem lookupStruct_same (name) : Same (lookupStruct name) (lookupStruct name) :=
  .query (fun _ _ => rfl) fun _ _ _ => rfl

@[grind ←]
theorem lookupStructSizeCache_same (name) : Same (lookupStructSizeCache name) (lookupStructSizeCache name) :=
  .query (fun _ _ => rfl) fun _ _ _ => rfl

@[grind ←]
theorem lookupStructMemberCache_same (structName fieldName) :
    Same (lookupStructMemberCache structName fieldName) (lookupStructMemberCache structName fieldName) := by
  let g : Scope → ValueState → Option (CType × Int) := fun _ st =>
    (symbolMapLookup structName st.structMembers).bind (symbolMapLookup fieldName)
  refine .query (g := g) (fun scope st => ?_) fun _ _ _ => rfl
  have hb (f : ValueState → ValueM (Option (CType × Int))) : (get >>= f) scope st = f st scope st := rfl
  cases h : symbolMapLookup structName st.structMembers <;> simp only [lookupStructMemberCache, hb, g, h] <;> rfl

@[grind ←]
theorem freshDataLabel_same : Same freshDataLabel freshDataLabel :=
  .step (fun _ _ => rfl) (fun _ _ _ => rfl) (fun _ _ => rfl) fun _ => rfl

@[grind ←]
theorem addDataItem_same (item) : Same (addDataItem item) (addDataItem item) :=
  .change (fun _ _ => rfl) (fun _ _ => rfl) fun _ => rfl

end State
section Types

@[grind ←]
theorem requireMaybeType_same (msg mty) : Same (requireMaybeType msg mty) (requireMaybeType msg mty) := by
  unfold requireMaybeType
  repeat' first | split | with_reducible refine .bind ?_ fun _ => ?_ | grind

@[grind ←]
theorem aggregateFields_same (ty) : Same (aggregateFields ty) (aggregateFields ty) := by
  unfold aggregateFields
  repeat' first | split | with_reducible refine .bind ?_ fun _ => ?_ | grind

@[grind ←]
theorem isIntegerTypeM_same (ty) : Same (isIntegerTypeM ty) (isIntegerTypeM ty) := by
  unfold isIntegerTypeM
  repeat' first | split | with_reducible refine .bind ?_ fun _ => ?_ | grind

@[grind ←]
theorem isAggregateTypeM_same (ty) : Same (isAggregateTypeM ty) (isAggregateTypeM ty) := by
  unfold isAggregateTypeM
  repeat' first | split | with_reducible refine .bind ?_ fun _ => ?_ | grind

@[grind ←]
theorem sizeConstant_same (n) : Same (sizeConstant n) (sizeConstant n) := by
  unfold sizeConstant
  repeat' first | split | with_reducible refine .bind ?_ fun _ => ?_ | grind

@[grind ←]
theorem checkedArraySize_same (size count) :
    Same (checkedArraySize size count) (checkedArraySize size count) := by
  unfold checkedArraySize
  repeat' first | split | with_reducible refine .bind ?_ fun _ => ?_ | grind

@[grind ←]
theorem integerLiteralType_same (text) : Same (integerLiteralType text) (integerLiteralType text) := by
  unfold integerLiteralType
  repeat' first | split | with_reducible refine .bind ?_ fun _ => ?_ | grind

end Types

structure Typing.AllSame (t t' : Typing) : Prop where
  typeSize            : ∀ ty, Same (t.typeSize ty) (t'.typeSize ty)
  typeAlign           : ∀ ty, Same (t.typeAlign ty) (t'.typeAlign ty)
  exprType            : ∀ expr, Same (t.exprType expr) (t'.exprType expr)
  constExprTyped      : ∀ live expr, Same (t.constExprTyped live expr) (t'.constExprTyped live expr)
  anonymousMemberInfo : ∀ offset ty field, Same (t.anonymousMemberInfo offset ty field)
                        (t'.anonymousMemberInfo offset ty field)

attribute [grind ←] Typing.AllSame.typeSize Typing.AllSame.typeAlign Typing.AllSame.exprType
  Typing.AllSame.constExprTyped Typing.AllSame.anonymousMemberInfo

namespace Typing

variable {t t' : Typing} (ht : t.AllSame t')

@[grind ←]
theorem targetNamedTypeSize_same (name size) :
    Same (targetNamedTypeSize name size) (targetNamedTypeSize name size) := by
  unfold targetNamedTypeSize
  repeat' first | split | with_reducible refine .bind ?_ fun _ => ?_ | grind

@[grind ←]
theorem callNameType_same (name) : Same (callNameType name) (callNameType name) := by
  unfold callNameType
  repeat' first | split | with_reducible refine .bind ?_ fun _ => ?_ | grind

@[grind ←]
theorem varType_same (name) : Same (varType name) (varType name) := by
  unfold varType
  repeat' first | split | with_reducible refine .bind ?_ fun _ => ?_ | grind

include ht

section Layout

@[grind ←]
theorem arrayBoundSize_same (bound) : Same (t.arrayBoundSize bound) (t'.arrayBoundSize bound) := by
  unfold arrayBoundSize
  repeat' first | split | with_reducible refine .bind ?_ fun _ => ?_ | grind

@[grind ←]
theorem foldAggregateFields_same (offset maxAlign fields) :
    Same (t.foldAggregateFields offset maxAlign fields) (t'.foldAggregateFields offset maxAlign fields) := by
  induction fields generalizing offset maxAlign <;> unfold foldAggregateFields <;>
    repeat' first | split | with_reducible refine .bind ?_ fun _ => ?_ | grind

@[grind ←]
theorem aggregateStructSize_same (fields) :
    Same (t.aggregateStructSize fields) (t'.aggregateStructSize fields) := by
  unfold aggregateStructSize
  repeat' first | split | with_reducible refine .bind ?_ fun _ => ?_ | grind

@[grind ←]
theorem unionFields_same (fields) : Same (t.unionFields fields) (t'.unionFields fields) := by
  induction fields <;> unfold unionFields <;>
    repeat' first | split | with_reducible refine .bind ?_ fun _ => ?_ | grind

@[grind ←]
theorem aggregateUnionSize_same (members) :
    Same (t.aggregateUnionSize members) (t'.aggregateUnionSize members) := by
  unfold aggregateUnionSize
  repeat' first | split | with_reducible refine .bind ?_ fun _ => ?_ | grind

@[grind ←]
theorem aggregateSize_same (isUnion fields) :
    Same (t.aggregateSize isUnion fields) (t'.aggregateSize isUnion fields) := by
  unfold aggregateSize
  repeat' first | split | with_reducible refine .bind ?_ fun _ => ?_ | grind

@[grind ←]
theorem structSize_same (name) : Same (t.structSize name) (t'.structSize name) := by
  unfold structSize
  repeat' first | split | with_reducible refine .bind ?_ fun _ => ?_ | grind

@[grind ←]
theorem namedTypeSize_same (name) : Same (t.namedTypeSize name) (t'.namedTypeSize name) := by
  unfold namedTypeSize
  repeat' first | split | with_reducible refine .bind ?_ fun _ => ?_ | grind

@[grind ←]
theorem typeSizeStep_same (ty) : Same (t.typeSizeStep ty) (t'.typeSizeStep ty) := by
  unfold typeSizeStep
  repeat' first | split | with_reducible refine .bind ?_ fun _ => ?_ | grind

@[grind ←]
theorem aggregateAlign_same (fields) : Same (t.aggregateAlign fields) (t'.aggregateAlign fields) := by
  induction fields <;> unfold aggregateAlign <;>
    repeat' first | split | with_reducible refine .bind ?_ fun _ => ?_ | grind

@[grind ←]
theorem typeAlignStep_same (ty) : Same (t.typeAlignStep ty) (t'.typeAlignStep ty) := by
  unfold typeAlignStep
  repeat' first | split | with_reducible refine .bind ?_ fun _ => ?_ | grind

end Layout

section Members

@[grind ←]
theorem anonymousMemberInfoForName_same (isUnion aligned ty name field) :
    Same (t.anonymousMemberInfoForName isUnion aligned ty name field) (t'.anonymousMemberInfoForName isUnion aligned ty name field) := by
  unfold anonymousMemberInfoForName
  repeat' first | split | with_reducible refine .bind ?_ fun _ => ?_ | grind

@[grind ←]
theorem fieldOffset_same (isUnion field offset fields) :
    Same (t.fieldOffset isUnion field offset fields) (t'.fieldOffset isUnion field offset fields) := by
  induction fields generalizing offset <;> unfold fieldOffset <;>
    repeat' first | split | with_reducible refine .bind ?_ fun _ => ?_ | grind

@[grind ←]
theorem nestedFieldOffset_same (baseOffset isUnion field offset fields) :
    Same (t.nestedFieldOffset baseOffset isUnion field offset fields) (t'.nestedFieldOffset baseOffset isUnion field offset fields) := by
  induction fields generalizing offset <;> unfold nestedFieldOffset <;>
    repeat' first | split | with_reducible refine .bind ?_ fun _ => ?_ | grind

@[grind ←]
theorem anonymousMemberInfoStep_same (baseOffset ty field) :
    Same (t.anonymousMemberInfoStep baseOffset ty field) (t'.anonymousMemberInfoStep baseOffset ty field) := by
  unfold anonymousMemberInfoStep
  repeat' first | split | with_reducible refine .bind ?_ fun _ => ?_ | grind

@[grind ←]
theorem memberInfoForAggregateUncached_same (ty field) :
    Same (t.memberInfoForAggregateUncached ty field) (t'.memberInfoForAggregateUncached ty field) := by
  unfold memberInfoForAggregateUncached
  repeat' first | split | with_reducible refine .bind ?_ fun _ => ?_ | grind

@[grind ←]
theorem memberInfoForAggregate_same (ty field) :
    Same (t.memberInfoForAggregate ty field) (t'.memberInfoForAggregate ty field) := by
  unfold memberInfoForAggregate
  split
  case h_1 =>
    refine .bind (lookupStructMemberCache_same _ _) fun info => ?_
    cases info <;> grind
  case h_2 => grind

@[grind ←]
theorem memberInfoMaybe_same (mty field) :
    Same (t.memberInfoMaybe mty field) (t'.memberInfoMaybe mty field) := by
  unfold memberInfoMaybe
  repeat' first | split | with_reducible refine .bind ?_ fun _ => ?_ | grind

@[grind ←]
theorem memberInfo_same (mty field) : Same (t.memberInfo mty field) (t'.memberInfo mty field) := by
  unfold memberInfo
  repeat' first | split | with_reducible refine .bind ?_ fun _ => ?_ | grind

end Members

section Conversions

@[grind ←]
theorem promoteIntegerType_same (ty) : Same (t.promoteIntegerType ty) (t'.promoteIntegerType ty) := by
  unfold promoteIntegerType
  repeat' first | split | with_reducible refine .bind ?_ fun _ => ?_ | grind

@[grind ←]
theorem promoteMaybeIntegerType_same (mty) :
    Same (t.promoteMaybeIntegerType mty) (t'.promoteMaybeIntegerType mty) := by
  unfold promoteMaybeIntegerType
  repeat' first | split | with_reducible refine .bind ?_ fun _ => ?_ | grind

@[grind ←]
theorem promotedExprType_same (expr) : Same (t.promotedExprType expr) (t'.promotedExprType expr) := by
  unfold promotedExprType
  repeat' first | split | with_reducible refine .bind ?_ fun _ => ?_ | grind

@[grind ←]
theorem canonicalIntegerType_same (ty) : Same (t.canonicalIntegerType ty) (t'.canonicalIntegerType ty) := by
  unfold canonicalIntegerType
  repeat' first | split | with_reducible refine .bind ?_ fun _ => ?_ | grind

@[grind ←]
theorem usualArithmeticTypes_same (leftTy0 rightTy0) :
    Same (t.usualArithmeticTypes leftTy0 rightTy0) (t'.usualArithmeticTypes leftTy0 rightTy0) := by
  unfold usualArithmeticTypes
  repeat' first | split | with_reducible refine .bind ?_ fun _ => ?_ | grind

@[grind ←]
theorem usualArithmeticType_same (left right) :
    Same (t.usualArithmeticType left right) (t'.usualArithmeticType left right) := by
  unfold usualArithmeticType
  repeat' first | split | with_reducible refine .bind ?_ fun _ => ?_ | grind

@[grind ←]
theorem conditionalType_same (yes no) : Same (t.conditionalType yes no) (t'.conditionalType yes no) := by
  refine .bind (ht.exprType _) fun yesTy => .bind (ht.exprType _) fun noTy => ?_
  cases yesTy <;> cases noTy
  case some.some => exact .bind (isIntegerTypeM_same _) fun _ => .bind (isIntegerTypeM_same _)
                      fun _ => by grind
  all_goals exact .pure

end Conversions

@[grind ←]
theorem binaryType_same (op left right) : Same (t.binaryType op left right) (t'.binaryType op left right) := by
  unfold binaryType
  repeat' first | split | with_reducible refine .bind ?_ fun _ => ?_ | grind

@[grind ←]
theorem exprTypeStep_same (expr) : Same (t.exprTypeStep expr) (t'.exprTypeStep expr) := by
  unfold exprTypeStep
  repeat' first | split | with_reducible refine .bind ?_ fun _ => ?_ | grind

section Constants

@[grind ←]
theorem castConstant_same (ty value) : Same (t.castConstant ty value) (t'.castConstant ty value) := by
  unfold castConstant
  repeat' first | split | with_reducible refine .bind ?_ fun _ => ?_ | grind

@[grind ←]
theorem unevaluatedConstant_same (expr) : Same (t.unevaluatedConstant expr) (t'.unevaluatedConstant expr) := by
  unfold unevaluatedConstant
  repeat' first | split | with_reducible refine .bind ?_ fun _ => ?_ | grind

@[grind ←]
theorem unsupportedConstant_same (live expr) :
    Same (t.unsupportedConstant live expr) (t'.unsupportedConstant live expr) := by
  unfold unsupportedConstant
  repeat' first | split | with_reducible refine .bind ?_ fun _ => ?_ | grind

@[grind ←]
theorem constExprTypedStep_same (live expr) :
    Same (t.constExprTypedStep live expr) (t'.constExprTypedStep live expr) := by
  unfold constExprTypedStep
  repeat' first | split | with_reducible refine .bind ?_ fun _ => ?_ | grind

end Constants

end Typing

-- Types do not depend on the fuel, either.
theorem typing_same {fuel fuel' : Nat} (h : fuel ≤ fuel') : (typing fuel).AllSame (typing fuel') := by
  induction fuel generalizing fuel'
  case zero =>
    exact ⟨fun _ => .outOfFuel, fun _ => .outOfFuel, fun _ => .outOfFuel, fun _ _ => .outOfFuel,
      fun _ _ _ => .outOfFuel⟩
  case succ hi =>
    obtain ⟨fuel', rfl⟩ := Nat.exists_eq_add_of_le' (Nat.one_le_of_lt h)
    have ht := hi <| Nat.le_of_succ_le_succ h
    exact ⟨Typing.typeSizeStep_same ht, Typing.typeAlignStep_same ht, Typing.exprTypeStep_same ht,
      Typing.constExprTypedStep_same ht, Typing.anonymousMemberInfoStep_same ht⟩

end Hcc
