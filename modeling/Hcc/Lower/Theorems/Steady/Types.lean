import Hcc.Compile.Run
import Hcc.SymbolTable.Theorems.Lookup
import Hcc.Lower.Declaration

open Stateful

namespace Hcc

variable {st st₁ st₂ : ValueState} {α β : Type}

-- Expressions allocate temporaries and labels, but they do not declare anything.
structure ValueState.Extends (st st' : ValueState) : Prop where
  nextTemp        : st.nextTemp ≤ st'.nextTemp
  nextLabel       : st.nextLabel ≤ st'.nextLabel
  globals         : st'.globals = st.globals
  constants       : st'.constants = st.constants
  functions       : st'.functions = st.functions
  functionTypes   : st'.functionTypes = st.functionTypes
  targetBits      : st'.targetBits = st.targetBits
  currentFunction : st'.currentFunction = st.currentFunction

theorem ValueState.Extends.refl : st.Extends st :=
  ⟨le_rfl, le_rfl, rfl, rfl, rfl, rfl, rfl, rfl⟩

theorem ValueState.Extends.trans (h₁ : st.Extends st₁) (h₂ : st₁.Extends st₂) : st.Extends st₂ where
  nextTemp        := h₁.nextTemp.trans h₂.nextTemp
  nextLabel       := h₁.nextLabel.trans h₂.nextLabel
  globals         := h₂.globals.trans h₁.globals
  constants       := h₂.constants.trans h₁.constants
  functions       := h₂.functions.trans h₁.functions
  functionTypes   := h₂.functionTypes.trans h₁.functionTypes
  targetBits      := h₂.targetBits.trans h₁.targetBits
  currentFunction := h₂.currentFunction.trans h₁.currentFunction

def Steady (m : ValueM α) : Prop :=
  ∀ ⦃scope st a st'⦄, Run (m scope) st a st' → st.Extends st'

-- What a computation does to the state can be described by any relation that holds of the single steps.
def Respects (R : ValueState → ValueState → Prop) (m : ValueM α) : Prop :=
  ∀ ⦃scope st a st'⦄, Run (m scope) st a st' → R st st'

def ValueState.dataLabel (st : ValueState) (n : Nat) : String :=
  st.dataPrefix ++ "_" ++ ("L" ++ toString n)

def ValueState.addItem (st : ValueState) (item : DataItem) : ValueState :=
  { st with dataItems := item :: st.dataItems.filter (·.label ≠ item.label) }

-- Names of aggregates are not forgotten.
def Outgrows (structs structs' : SymbolMap (Bool × List Field)) : Prop :=
  structs'.Ordered → structs.Ordered ∧
    ∀ name, symbolMapMember name structs' = true → symbolMapMember name structs = true

theorem Outgrows.refl {structs} : Outgrows structs structs :=
  fun h => ⟨h, fun _ => id⟩

theorem Outgrows.insert {structs name fields} :
    Outgrows (symbolMapInsert name fields structs) structs := by
  intro h
  refine ⟨h.insert, fun name' hn => ?_⟩
  rw [symbolMapMember, h.lookup_insert] at *
  split <;> simp_all

-- The steps of the computation of types.
class Tame (R : ValueState → ValueState → Prop) : Prop where
  refl  : ∀ st, R st st
  trans : ∀ {st st₁ st₂}, R st st₁ → R st₁ st₂ → R st st₂
  types : ∀ st structs structSizes structMembers, Outgrows structs st.structs →
          R st { st with structs, structSizes, structMembers }

-- A data item gets its label before the computation of its contents.
class Labels (R : ValueState → ValueState → Prop) : Prop extends Tame R where
  dataItem  : ∀ {st st₁} values, R { st with nextLabel := st.nextLabel + 1 } st₁ →
              R st (st₁.addItem ⟨st.dataLabel st.nextLabel, values⟩)

-- The steps of the lowering of expressions.
class Stable (R : ValueState → ValueState → Prop) : Prop extends Labels R where
  freshTemp : ∀ st, R st { st with nextTemp := st.nextTemp + 1 }

instance : Stable ValueState.Extends where
  refl _        := .refl
  trans         := .trans
  freshTemp _   := ⟨Nat.le_succ _, le_rfl, rfl, rfl, rfl, rfl, rfl, rfl⟩
  types _ _ _ _ _ := ⟨le_rfl, le_rfl, rfl, rfl, rfl, rfl, rfl, rfl⟩
  dataItem _ h  := ⟨h.nextTemp, (Nat.le_succ _).trans h.nextLabel, h.globals, h.constants, h.functions,
                     h.functionTypes, h.targetBits, h.currentFunction⟩

section State

theorem run_freshTemp_iff {st st' : ValueState} : Run (freshTemp scope) st temp st' ↔
    ⟨st.nextTemp⟩ = temp ∧ { st with nextTemp := st.nextTemp + 1 } = st' :=
  Fueled.done_inj.trans <| by simp

theorem run_freshDataLabel_iff {st st' : ValueState} : Run (freshDataLabel scope) st label st' ↔
    st.dataLabel st.nextLabel = label ∧ { st with nextLabel := st.nextLabel + 1 } = st' :=
  Fueled.done_inj.trans <| by simp [ValueState.dataLabel]

theorem run_addDataItem_iff {st st' : ValueState} :
    Run (addDataItem item scope) st a st' ↔ st.addItem item = st' :=
  run_modify_iff

end State

variable {R : ValueState → ValueState → Prop} [Tame R]

namespace Respects

variable {m : ValueM α} {f : α → ValueM β}

@[grind ←]
theorem pure {a : α} : Respects R (pure a) := by
  intro _ st _ _ hr
  exact (run_pure_iff.mp hr).right ▸ Tame.refl st

omit [Tame R] in
@[grind ←]
theorem throw {msg : String} : Respects R (throw msg : ValueM α) :=
  fun _ _ _ _ hr => absurd hr not_run_throw

@[grind ←]
theorem bind (hm : Respects R m) (hf : ∀ a, Respects R (f a)) : Respects R (m >>= f) := by
  intro scope st b st' hr
  obtain ⟨_, _, hr, hr'⟩ := run_bind_iff (f := fun a => f a scope) |>.mp hr
  exact Tame.trans (hm hr) <| hf _ hr'

@[grind ←]
theorem map {g : α → β} (hm : Respects R m) : Respects R (g <$> m) := by
  rw [map_eq_pure_bind]
  exact hm.bind fun _ => .pure

@[grind ←]
theorem get : Respects R (get : ValueM ValueState) := by
  intro _ st _ _ hr
  exact (run_get_iff.mp hr).right ▸ Tame.refl st

@[grind ←]
theorem read : Respects R (read : ValueM Scope) :=
  fun _ st _ _ hr => (run_pure_iff.mp hr).right ▸ Tame.refl st

omit [Tame R] in
theorem modify {g : ValueState → ValueState} (hg : ∀ st : ValueState, R st (g st)) :
    Respects R (modify g : ValueM Unit) := by
  intro _ st _ _ hr
  exact run_modify_iff.mp hr ▸ hg st

@[grind ←]
theorem mapM {g : α → ValueM β} (hg : ∀ a, Respects R (g a)) (as : List α) : Respects R (as.mapM g) := by
  induction as
  case nil          => exact .pure
  case cons a _ hi  =>
    rw [List.mapM_cons]
    exact (hg a).bind fun _ => hi.bind fun _ => .pure

omit [Tame R] in
theorem outOfFuel : Respects R (fun _ => Stateful.outOfFuel : ValueM α) :=
  fun _ _ _ _ hr => absurd hr not_run_outOfFuel

end Respects

section State

@[grind ←]
theorem bindStruct_respects (name isUnion fields) : Respects R (bindStruct name isUnion fields) :=
  .modify fun st => Tame.types st _ _ _ .insert

@[grind ←]
theorem cacheStructSize_respects (name size) : Respects R (cacheStructSize name size) :=
  .modify fun st => Tame.types st _ _ _ .refl

@[grind ←]
theorem cacheStructMember_respects (structName fieldName info) :
    Respects R (cacheStructMember structName fieldName info) :=
  .modify fun st => Tame.types st _ _ _ .refl

@[grind ←]
theorem targetWordSize_respects : Respects R targetWordSize := by
  unfold targetWordSize
  grind

@[grind ←]
theorem currentFunctionName_respects : Respects R currentFunctionName := by
  unfold currentFunctionName
  grind

@[grind ←]
theorem lookupVarMaybe_respects (name) : Respects R (lookupVarMaybe name) := by
  unfold lookupVarMaybe
  grind

@[grind ←]
theorem lookupVarType_respects (name) : Respects R (lookupVarType name) := by
  unfold lookupVarType
  grind

@[grind ←]
theorem lookupGlobalType_respects (name) : Respects R (lookupGlobalType name) := by
  unfold lookupGlobalType
  grind

@[grind ←]
theorem lookupConstant_respects (name) : Respects R (lookupConstant name) := by
  unfold lookupConstant
  grind

@[grind ←]
theorem lookupFunction_respects (name) : Respects R (lookupFunction name) := by
  unfold lookupFunction
  grind

@[grind ←]
theorem lookupFunctionType_respects (name) : Respects R (lookupFunctionType name) := by
  unfold lookupFunctionType
  grind

@[grind ←]
theorem lookupStruct_respects (name) : Respects R (lookupStruct name) := by
  unfold lookupStruct
  grind

@[grind ←]
theorem lookupStructSizeCache_respects (name) : Respects R (lookupStructSizeCache name) := by
  unfold lookupStructSizeCache
  grind

@[grind ←]
theorem lookupStructMemberCache_respects (structName fieldName) :
    Respects R (lookupStructMemberCache structName fieldName) := by
  unfold lookupStructMemberCache
  grind

end State
section Types

@[grind ←]
theorem requireMaybeType_respects (msg mty) : Respects R (requireMaybeType msg mty) := by
  unfold requireMaybeType
  grind

@[grind ←]
theorem aggregateFields_respects (ty) : Respects R (aggregateFields ty) := by
  unfold aggregateFields
  grind

@[grind ←]
theorem isIntegerTypeM_respects (ty) : Respects R (isIntegerTypeM ty) := by
  unfold isIntegerTypeM
  grind

@[grind ←]
theorem isAggregateTypeM_respects (ty) : Respects R (isAggregateTypeM ty) := by
  unfold isAggregateTypeM
  grind

@[grind ←]
theorem sizeConstant_respects (n) : Respects R (sizeConstant n) := by
  unfold sizeConstant
  grind

@[grind ←]
theorem checkedArraySize_respects (size count) : Respects R (checkedArraySize size count) := by
  unfold checkedArraySize
  grind

@[grind ←]
theorem integerLiteralType_respects (text) : Respects R (integerLiteralType text) := by
  unfold integerLiteralType
  grind

end Types

structure Typing.AllRespect (R : ValueState → ValueState → Prop) (t : Typing) : Prop where
  typeSize            : ∀ ty, Respects R (t.typeSize ty)
  typeAlign           : ∀ ty, Respects R (t.typeAlign ty)
  exprType            : ∀ expr, Respects R (t.exprType expr)
  constExprTyped      : ∀ live expr, Respects R (t.constExprTyped live expr)
  anonymousMemberInfo : ∀ offset ty field, Respects R (t.anonymousMemberInfo offset ty field)

attribute [grind ←] Typing.AllRespect.typeSize Typing.AllRespect.typeAlign Typing.AllRespect.exprType
  Typing.AllRespect.constExprTyped Typing.AllRespect.anonymousMemberInfo

namespace Typing

variable {t : Typing} (ht : t.AllRespect R)

@[grind ←]
theorem targetNamedTypeSize_respects (name size) : Respects R (targetNamedTypeSize name size) := by
  unfold targetNamedTypeSize
  grind

@[grind ←]
theorem callNameType_respects (name) : Respects R (callNameType name) := by
  unfold callNameType
  grind

@[grind ←]
theorem varType_respects (name) : Respects R (varType name) := by
  unfold varType
  grind

include ht

section Layout

@[grind ←]
theorem arrayBoundSize_respects (bound) : Respects R (t.arrayBoundSize bound) := by
  unfold arrayBoundSize
  grind

@[grind ←]
theorem foldAggregateFields_respects (offset maxAlign fields) :
    Respects R (t.foldAggregateFields offset maxAlign fields) := by
  induction fields generalizing offset maxAlign <;> unfold foldAggregateFields <;> grind

@[grind ←]
theorem aggregateStructSize_respects (fields) : Respects R (t.aggregateStructSize fields) := by
  unfold aggregateStructSize
  grind

@[grind ←]
theorem unionFields_respects (fields) : Respects R (t.unionFields fields) := by
  induction fields <;> unfold unionFields <;> grind

@[grind ←]
theorem aggregateUnionSize_respects (members) : Respects R (t.aggregateUnionSize members) := by
  unfold aggregateUnionSize
  grind

@[grind ←]
theorem aggregateSize_respects (isUnion fields) : Respects R (t.aggregateSize isUnion fields) := by
  unfold aggregateSize
  grind

@[grind ←]
theorem structSize_respects (name) : Respects R (t.structSize name) := by
  unfold structSize
  grind

@[grind ←]
theorem namedTypeSize_respects (name) : Respects R (t.namedTypeSize name) := by
  unfold namedTypeSize
  grind

@[grind ←]
theorem typeSizeStep_respects (ty) : Respects R (t.typeSizeStep ty) := by
  unfold typeSizeStep
  grind

@[grind ←]
theorem aggregateAlign_respects (fields) : Respects R (t.aggregateAlign fields) := by
  induction fields <;> unfold aggregateAlign <;> grind

@[grind ←]
theorem typeAlignStep_respects (ty) : Respects R (t.typeAlignStep ty) := by
  unfold typeAlignStep
  grind

end Layout

section Members

@[grind ←]
theorem anonymousMemberInfoForName_respects (isUnion aligned ty name field) :
    Respects R (t.anonymousMemberInfoForName isUnion aligned ty name field) := by
  unfold anonymousMemberInfoForName
  grind

@[grind ←]
theorem fieldOffset_respects (isUnion field offset fields) :
    Respects R (t.fieldOffset isUnion field offset fields) := by
  induction fields generalizing offset <;> unfold fieldOffset <;> grind

@[grind ←]
theorem nestedFieldOffset_respects (baseOffset isUnion field offset fields) :
    Respects R (t.nestedFieldOffset baseOffset isUnion field offset fields) := by
  induction fields generalizing offset <;> unfold nestedFieldOffset <;> grind

@[grind ←]
theorem anonymousMemberInfoStep_respects (baseOffset ty field) :
    Respects R (t.anonymousMemberInfoStep baseOffset ty field) := by
  unfold anonymousMemberInfoStep
  grind

@[grind ←]
theorem memberInfoForAggregateUncached_respects (ty field) :
    Respects R (t.memberInfoForAggregateUncached ty field) := by
  unfold memberInfoForAggregateUncached
  grind

@[grind ←]
theorem memberInfoForAggregate_respects (ty field) : Respects R (t.memberInfoForAggregate ty field) := by
  unfold memberInfoForAggregate
  split
  case h_1 =>
    refine .bind (lookupStructMemberCache_respects _ _) fun info => ?_
    cases info <;> grind
  case h_2 => grind

@[grind ←]
theorem memberInfoMaybe_respects (mty field) : Respects R (t.memberInfoMaybe mty field) := by
  unfold memberInfoMaybe
  grind

@[grind ←]
theorem memberInfo_respects (mty field) : Respects R (t.memberInfo mty field) := by
  unfold memberInfo
  grind

end Members

section Conversions

@[grind ←]
theorem promoteIntegerType_respects (ty) : Respects R (t.promoteIntegerType ty) := by
  unfold promoteIntegerType
  grind

@[grind ←]
theorem promoteMaybeIntegerType_respects (mty) : Respects R (t.promoteMaybeIntegerType mty) := by
  unfold promoteMaybeIntegerType
  grind

@[grind ←]
theorem promotedExprType_respects (expr) : Respects R (t.promotedExprType expr) := by
  unfold promotedExprType
  grind

@[grind ←]
theorem canonicalIntegerType_respects (ty) : Respects R (t.canonicalIntegerType ty) := by
  unfold canonicalIntegerType
  grind

@[grind ←]
theorem usualArithmeticTypes_respects (leftTy0 rightTy0) :
    Respects R (t.usualArithmeticTypes leftTy0 rightTy0) := by
  unfold usualArithmeticTypes
  grind

@[grind ←]
theorem usualArithmeticType_respects (left right) : Respects R (t.usualArithmeticType left right) := by
  unfold usualArithmeticType
  grind

@[grind ←]
theorem conditionalType_respects (yes no) : Respects R (t.conditionalType yes no) := by
  refine .bind (ht.exprType _) fun yesTy => .bind (ht.exprType _) fun noTy => ?_
  cases yesTy <;> cases noTy
  case some.some => exact .bind (isIntegerTypeM_respects _) fun _ => .bind (isIntegerTypeM_respects _)
                      fun _ => by grind
  all_goals exact .pure

end Conversions

@[grind ←]
theorem binaryType_respects (op left right) : Respects R (t.binaryType op left right) := by
  unfold binaryType
  grind

@[grind ←]
theorem exprTypeStep_respects (expr) : Respects R (t.exprTypeStep expr) := by
  unfold exprTypeStep
  grind

section Constants

@[grind ←]
theorem castConstant_respects (ty value) : Respects R (t.castConstant ty value) := by
  unfold castConstant
  grind

@[grind ←]
theorem unevaluatedConstant_respects (expr) : Respects R (t.unevaluatedConstant expr) := by
  unfold unevaluatedConstant
  grind

@[grind ←]
theorem unsupportedConstant_respects (live expr) : Respects R (t.unsupportedConstant live expr) := by
  unfold unsupportedConstant
  grind

@[grind ←]
theorem constExprTypedStep_respects (live expr) : Respects R (t.constExprTypedStep live expr) := by
  unfold constExprTypedStep
  grind

end Constants

end Typing

theorem typing_respects (fuel) : (typing fuel).AllRespect R := by
  induction fuel
  case zero       => exact ⟨fun _ => .outOfFuel, fun _ => .outOfFuel, fun _ => .outOfFuel,
    fun _ _ => .outOfFuel, fun _ _ _ => .outOfFuel⟩
  case succ _ hi  => exact ⟨Typing.typeSizeStep_respects hi, Typing.typeAlignStep_respects hi,
    Typing.exprTypeStep_respects hi, Typing.constExprTypedStep_respects hi,
    Typing.anonymousMemberInfoStep_respects hi⟩

section Allocation

variable {R : ValueState → ValueState → Prop} {m : ValueM α}

@[grind ←]
theorem freshTemp_respects [Stable R] : Respects R freshTemp := by
  intro _ st _ _ hr
  obtain ⟨rfl, rfl⟩ := run_freshTemp_iff.mp hr
  exact Stable.freshTemp st

variable [Labels R]

-- The item of a label is added after its contents have been computed.
theorem Respects.labelled {values : α → List DataValue} {g : String → α → ValueM β} (hm : Respects R m)
    (hg : ∀ label a, Respects R (g label a)) :
    Respects R (do
      let label ← freshDataLabel
      let a ← m
      addDataItem ⟨label, values a⟩
      g label a) := by
  intro scope st b st' hr
  obtain ⟨_, _, hf, hr⟩ := run_value_bind_iff.mp hr
  obtain ⟨a, _, hm', hr⟩ := run_value_bind_iff.mp hr
  obtain ⟨_, _, ha, hr⟩ := run_value_bind_iff.mp hr
  obtain ⟨rfl, rfl⟩ := run_freshDataLabel_iff.mp hf
  obtain rfl := run_addDataItem_iff.mp ha
  exact Tame.trans (Labels.dataItem (values a) <| hm hm') <| hg _ a hr

theorem Respects.withItem {values : List DataValue} {g : String → ValueM β} (hg : ∀ label, Respects R (g label)) :
    Respects R (do
      let label ← freshDataLabel
      addDataItem ⟨label, values⟩
      g label) := by
  have h : Respects R (freshDataLabel >>= fun label => (Pure.pure () : ValueM Unit) >>= fun _ =>
      addDataItem ⟨label, values⟩ >>= fun _ => g label) := .labelled .pure fun label _ => hg label
  simpa only [pure_bind] using h

end Allocation
end Hcc
