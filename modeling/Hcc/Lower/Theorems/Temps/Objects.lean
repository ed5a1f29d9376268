import Hcc.Ir.Temps
import Hcc.Lower.Theorems.Steady.Expression

open Stateful

namespace Hcc

-- What is fixed during the lowering of an expression: the variables, one temporary, and names that
-- are known to be those of aggregates.
structure TempContext where
  scope : Scope
  temp  : Temp
  names : String → Prop

namespace TempContext

variable (ctx : TempContext)

def Aggregate : CType → Prop
  | .named name => ctx.names name
  | ty          => isAggregateType ty

def Local : Prop :=
  ∃ name ty, scopeMapLookup name ctx.scope = some (ctx.temp, ty)

-- The temporary belongs to a variable that is not an aggregate.
def Scalar : Prop :=
  ∃ name ty, scopeMapLookup name ctx.scope = some (ctx.temp, ty) ∧ ¬ctx.Aggregate ty

structure Covers (st : ValueState) : Prop where
  ordered : st.structs.Ordered
  names   : ∀ name, ctx.names name → symbolMapMember name st.structs = true

end TempContext

-- No temporaries are created.
structure ValueState.Quiet (st st' : ValueState) : Prop where
  nextTemp : st'.nextTemp = st.nextTemp
  structs  : Outgrows st'.structs st.structs

theorem Outgrows.trans (h₂ : Outgrows structs₂ structs₁) (h₁ : Outgrows structs₁ structs) :
    Outgrows structs₂ structs := by
  intro h
  have ⟨ho₁, hn₁⟩ := h₁ h
  have ⟨ho₂, hn₂⟩ := h₂ ho₁
  exact ⟨ho₂, fun name => hn₂ name ∘ hn₁ name⟩

instance : Labels ValueState.Quiet where
  refl _          := ⟨rfl, .refl⟩
  trans h₁ h₂     := ⟨h₂.nextTemp.trans h₁.nextTemp, h₂.structs.trans h₁.structs⟩
  types _ _ _ _ h := ⟨rfl, h⟩
  dataItem _ h    := ⟨h.nextTemp, h.structs⟩

-- Whether a name is that of an aggregate depends on the state.
def isAggregateIn (structs : SymbolMap (Bool × List Field)) : CType → Bool
  | .named name => symbolMapMember name structs
  | ty          => isAggregateType ty

theorem run_isAggregateTypeM_iff {st st' : ValueState} :
    Run (isAggregateTypeM ty scope) st a st' ↔ isAggregateIn st.structs ty = a ∧ st = st' := by
  cases ty
  case named =>
    simp only [isAggregateTypeM, aggregateFields, run_value_bind_iff, run_lookupStruct_iff, run_value_pure_iff]
    exact ⟨fun ⟨_, _, ⟨hl, hs⟩, ha, hs'⟩ => ⟨(congrArg Option.isSome hl).trans ha, hs.trans hs'⟩,
      fun ⟨ha, hs⟩ => ⟨_, _, ⟨rfl, rfl⟩, ha, hs⟩⟩
  all_goals exact run_value_pure_iff

section Emission

-- The instructions and operands in the result of a computation, and the variables that it refers to.
class Emission (α : Type) where
  instrs   : α → List Instr
  operands : α → List Operand
  locals   : α → List (Temp × CType)

def LValue.operands : LValue → List Operand
  | .lLocal temp _   => [.temp temp]
  | .lAddress addr _ => [addr]

def LValue.locals : LValue → List (Temp × CType)
  | .lLocal temp ty => [(temp, ty)]
  | .lAddress _ _   => []

instance : Emission (List Instr) := ⟨id, fun _ => [], fun _ => []⟩
instance : Emission (List Instr × Operand) := ⟨Prod.fst, fun a => [a.2], fun _ => []⟩
instance : Emission (List Instr × List Operand) := ⟨Prod.fst, Prod.snd, fun _ => []⟩
instance : Emission (List Instr × Operand × Operand) :=
  ⟨Prod.fst, fun a => [a.2.1, a.2.2], fun _ => []⟩
instance : Emission (List Instr × BinOp × Operand × Operand) :=
  ⟨Prod.fst, fun a => [a.2.2.1, a.2.2.2], fun _ => []⟩
instance : Emission (List Instr × LValue) := ⟨Prod.fst, fun a => a.2.operands, fun a => a.2.locals⟩

-- A new temporary is represented by some instruction that creates it.
instance : Emission Temp := ⟨fun t => [.const t 0], fun t => [.temp t], fun _ => []⟩
instance : Emission (List (List Instr × Operand)) :=
  ⟨List.flatMap Prod.fst, List.map Prod.snd, fun _ => []⟩

section

variable {is : List Instr} {op : Operand}

@[simp, grind =]
theorem instrs_list (a : List Instr) : Emission.instrs a = a := rfl
@[simp, grind =]
theorem instrs_operand (a : List Instr × Operand) : Emission.instrs a = a.1 := rfl
@[simp, grind =]
theorem instrs_arguments (a : List Instr × List Operand) : Emission.instrs a = a.1 := rfl
@[simp, grind =]
theorem instrs_pair (a : List Instr × Operand × Operand) : Emission.instrs a = a.1 := rfl
@[simp, grind =]
theorem instrs_branch (a : List Instr × BinOp × Operand × Operand) : Emission.instrs a = a.1 := rfl
@[simp, grind =]
theorem instrs_lvalue (a : List Instr × LValue) : Emission.instrs a = a.1 := rfl
@[simp, grind =]
theorem instrs_temp (a : Temp) : Emission.instrs a = [.const a 0] := rfl
@[simp, grind =]
theorem instrs_results (a : List (List Instr × Operand)) : Emission.instrs a = a.flatMap Prod.fst := rfl
@[simp, grind =]
theorem operands_results (a : List (List Instr × Operand)) : Emission.operands a = a.map Prod.snd := rfl
@[simp, grind =]
theorem locals_results (a : List (List Instr × Operand)) : Emission.locals a = [] := rfl
@[simp, grind =]
theorem operands_list (a : List Instr) : Emission.operands a = [] := rfl
@[simp, grind =]
theorem operands_operand (a : List Instr × Operand) : Emission.operands a = [a.2] := rfl
@[simp, grind =]
theorem operands_arguments (a : List Instr × List Operand) : Emission.operands a = a.2 := rfl
@[simp, grind =]
theorem operands_pair (a : List Instr × Operand × Operand) : Emission.operands a = [a.2.1, a.2.2] := rfl
@[simp, grind =]
theorem operands_branch (a : List Instr × BinOp × Operand × Operand) :
    Emission.operands a = [a.2.2.1, a.2.2.2] := rfl
@[simp, grind =]
theorem operands_lvalue (a : List Instr × LValue) : Emission.operands a = a.2.operands := rfl
@[simp, grind =]
theorem operands_temp (a : Temp) : Emission.operands a = [.temp a] := rfl
@[simp, grind =]
theorem locals_list (a : List Instr) : Emission.locals a = [] := rfl
@[simp, grind =]
theorem locals_operand (a : List Instr × Operand) : Emission.locals a = [] := rfl
@[simp, grind =]
theorem locals_arguments (a : List Instr × List Operand) : Emission.locals a = [] := rfl
@[simp, grind =]
theorem locals_pair (a : List Instr × Operand × Operand) : Emission.locals a = [] := rfl
@[simp, grind =]
theorem locals_branch (a : List Instr × BinOp × Operand × Operand) : Emission.locals a = [] := rfl
@[simp, grind =]
theorem locals_lvalue (a : List Instr × LValue) : Emission.locals a = a.2.locals := rfl
@[simp, grind =]
theorem locals_temp (a : Temp) : Emission.locals a = [] := rfl

attribute [grind =] LValue.operands LValue.locals

end

end Emission

variable {ctx : TempContext} {N : Prop} {J : List (List Instr)}
variable {α β γ : Type} [Emission α] [Emission β] [Emission γ]

def AllAggregate (ctx : TempContext) (vars : List (Temp × CType)) : Prop :=
  ∀ ty, (ctx.temp, ty) ∈ vars → ctx.Aggregate ty

@[simp, grind ←]
theorem allAggregate_nil : AllAggregate ctx [] :=
  nofun

-- If `N` holds, then the temporary is not used unless it is created.
@[grind =]
def Known (ctx : TempContext) (N : Prop) (a : α) : Prop :=
  (N → Absent ctx.temp (Emission.instrs a) →
    Unused ctx.temp (Emission.instrs a) ∧ Spares ctx.temp (Emission.operands a)) ∧
  (¬ctx.Scalar → Unassigned ctx.temp (Emission.instrs a) ∧ AllAggregate ctx (Emission.locals a))

def Settled (ctx : TempContext) (N : Prop) (J : List (List Instr)) (a : α) : Prop :=
  Known ctx N a ∧ creations ctx.temp (Emission.instrs a) = allCreations ctx.temp J

@[grind =]
theorem settled_iff {a : α} : Settled ctx N J a ↔
    (N → Absent ctx.temp (Emission.instrs a) →
      Unused ctx.temp (Emission.instrs a) ∧ Spares ctx.temp (Emission.operands a)) ∧
    (¬ctx.Scalar → Unassigned ctx.temp (Emission.instrs a) ∧ AllAggregate ctx (Emission.locals a)) ∧
    creations ctx.temp (Emission.instrs a) = allCreations ctx.temp J :=
  and_assoc

-- Besides those of `J`, exactly the new temporaries are created.
structure Delivers (ctx : TempContext) (N : Prop) (J : List (List Instr)) (st : ValueState) (a : α)
    (st' : ValueState) : Prop where
  le        : st.nextTemp ≤ st'.nextTemp
  covers    : ctx.Covers st'
  known     : Known ctx N a
  creations : creations ctx.temp (Emission.instrs a) = allCreations ctx.temp J +
                if st.nextTemp ≤ ctx.temp.index ∧ ctx.temp.index < st'.nextTemp then 1 else 0

-- The instructions `J` are those that the result contains in addition to those of the computation.
def Tracks (ctx : TempContext) (N : Prop) (J : List (List Instr)) (m : ValueM α) : Prop :=
  ∀ ⦃st a st'⦄, Run (m ctx.scope) st a st' → ctx.Covers st → Delivers ctx N J st a st'

theorem TempContext.Covers.quiet (hc : ctx.Covers st) (h : st.Quiet st') : ctx.Covers st' :=
  have ⟨ho, hn⟩ := h.structs hc.ordered
  ⟨ho, fun name => hn name ∘ hc.names name⟩

namespace Tracks

variable {m : ValueM α} {f : α → ValueM β}

@[grind ←]
theorem pure {a : α} (h : Settled ctx N J a) : Tracks ctx N J (pure a) := by
  intro st a' st' hr hs
  obtain ⟨rfl, rfl⟩ := run_value_pure_iff.mp hr
  have ⟨hk, hc⟩ := h
  refine ⟨le_rfl, hs, hk, ?_⟩
  rw [hc, if_neg (by omega), add_zero]

@[grind ←]
theorem throw {msg : String} : Tracks ctx N J (throw msg : ValueM α) :=
  fun _ _ _ hr => absurd hr not_run_throw

theorem outOfFuel : Tracks ctx N J (fun _ => Stateful.outOfFuel : ValueM α) :=
  fun _ _ _ hr => absurd hr not_run_outOfFuel

@[grind ←]
theorem bind (hm : Tracks ctx (N ∧ AllAbsent ctx.temp J) [] m)
    (hf : ∀ a, Known ctx (N ∧ AllAbsent ctx.temp J) a →
      Tracks ctx N (Emission.instrs a :: J) (f a)) : Tracks ctx N J (m >>= f) := by
  intro st b st' hr hs
  obtain ⟨a, st₁, hr, hr'⟩ := run_value_bind_iff.mp hr
  have h := hm hr hs
  have h' := hf a h.known hr' h.covers
  refine ⟨h.le.trans h'.le, h'.covers, h'.known, ?_⟩
  have ⟨hl, _, _, hc⟩ := h
  have ⟨hl', _, _, hc'⟩ := h'
  rw [hc', allCreations, hc, allCreations]
  split_ifs <;> omega

@[grind ←]
theorem quiet {m : ValueM δ} {f : δ → ValueM β} (hm : Respects ValueState.Quiet m)
    (hf : ∀ a, Tracks ctx N J (f a)) : Tracks ctx N J (m >>= f) := by
  intro st b st' hr hs
  obtain ⟨a, st₁, hr, hr'⟩ := run_value_bind_iff.mp hr
  have h := hm hr
  have h' := hf a hr' <| hs.quiet h
  exact ⟨h.nextTemp ▸ h'.le, h'.covers, h'.known, h.nextTemp ▸ h'.creations⟩

theorem map {g : α → β} (hm : Tracks ctx N [] m)
    (hg : ∀ a, Emission.instrs (g a) = Emission.instrs a ∧ Emission.operands (g a) = [] ∧
      Emission.locals (g a) = []) : Tracks ctx N [] (g <$> m) := by
  intro st b st' hr hs
  have ⟨a, hr, he⟩ := run_value_map_iff.mp hr
  have ⟨hl, hc, hk, hn⟩ := hm hr hs
  have ⟨hi, ho, hv⟩ := hg a
  subst he
  refine ⟨hl, hc, ⟨fun h hb => ?_, fun h => ?_⟩, hi ▸ hn⟩
  · rw [hi, ho] at *
    exact ⟨(hk.left h hb).left, spares_nil⟩
  · rw [hi, hv]
    exact ⟨(hk.right h).left, allAggregate_nil⟩

-- The results of a list of computations.
theorem mapM {f : γ' → ValueM (List Instr × Operand)} {as : List γ'}
    (hf : ∀ {N' : Prop} a, (N' → N) → Tracks ctx N' [] (f a)) : Tracks ctx N [] (as.mapM f) := by
  induction as generalizing N
  case nil          => exact .pure <| by simp [settled_iff]
  case cons a _ hi  =>
    rw [List.mapM_cons]
    refine .bind (hf a And.left) fun a h₁ => .bind (hi fun a h => hf a (And.left ∘ h)) fun as h₂ => .pure ?_
    simp [settled_iff, Known] at *
    grind

@[grind ←]
theorem fst {m : ValueM (List Instr × Operand)} (hm : Tracks ctx N [] m) :
    Tracks ctx N [] (Prod.fst <$> m) :=
  hm.map fun _ => ⟨rfl, rfl, rfl⟩

theorem mono {N' : Prop} (hN : N' → N) (hm : Tracks ctx N J m) : Tracks ctx N' J m := by
  intro st a st' hr hs
  have ⟨hl, hc, hk, hn⟩ := hm hr hs
  exact ⟨hl, hc, ⟨hk.left ∘ hN, hk.right⟩, hn⟩

end Tracks

theorem known_temp (temp : Temp) : Known ctx N temp := by
  grind

@[grind ←]
theorem freshTemp_tracks : Tracks ctx N [] freshTemp := by
  intro st a st' hr hs
  obtain ⟨rfl, rfl⟩ := run_freshTemp_iff.mp hr
  refine ⟨Nat.le_succ _, ⟨hs.ordered, hs.names⟩, known_temp _, ?_⟩
  have he : (⟨st.nextTemp⟩ : Temp) = ctx.temp ↔ st.nextTemp = ctx.temp.index :=
    ⟨congrArg Temp.index, fun h => congrArg Temp.mk h⟩
  have hc (temp : Temp) : creations ctx.temp [.const temp 0] = if temp = ctx.temp then 1 else 0 := by
    grind
  rw [instrs_temp, hc, allCreations, zero_add, if_congr he rfl rfl]
  change _ = if _ ∧ _ < st.nextTemp + 1 then 1 else 0
  split_ifs <;> omega

section Objects

variable {op dst src base index : Operand}

@[grind ←]
theorem coerceBool_tracks (h : N → op ≠ .temp ctx.temp) : Tracks ctx N [] (coerceBool op) := by
  unfold coerceBool
  grind

@[grind ←]
theorem maskScalar_tracks (h : N → op ≠ .temp ctx.temp) : Tracks ctx N [] (maskScalar size op) := by
  unfold maskScalar
  grind

@[grind ←]
theorem signExtendScalar_tracks (h : N → op ≠ .temp ctx.temp) :
    Tracks ctx N [] (signExtendScalar size op) := by
  unfold signExtendScalar
  grind

@[grind ←]
theorem scaledIndex_tracks (h : N → index ≠ .temp ctx.temp) :
    Tracks ctx N [] (scaledIndex index size) := by
  unfold scaledIndex
  grind

@[grind ←]
theorem scaledOffset_tracks (h : N → op ≠ .temp ctx.temp) : Tracks ctx N [] (scaledOffset op size) := by
  unfold scaledOffset
  grind

@[grind ←]
theorem offsetAddress_tracks (h : N → base ≠ .temp ctx.temp) :
    Tracks ctx N [] (offsetAddress base offset) := by
  unfold offsetAddress
  grind

section Accesses

variable {width : Int} {t : Temp} {addr value : Operand}

@[simp, grind =]
theorem unsignedLoadAt_nested : (unsignedLoadAt width t addr).nested = [] := by
  unfold unsignedLoadAt
  grind

@[simp, grind =]
theorem unsignedLoadAt_created : (unsignedLoadAt width t addr).created = some t := by
  unfold unsignedLoadAt
  grind

@[simp, grind =]
theorem unsignedLoadAt_assigned : (unsignedLoadAt width t addr).assigned = none := by
  unfold unsignedLoadAt
  grind

@[simp, grind =]
theorem unsignedLoadAt_operands : (unsignedLoadAt width t addr).operands = [addr] := by
  unfold unsignedLoadAt
  grind

@[simp, grind =]
theorem unsignedStoreAt_nested : (unsignedStoreAt width addr value).nested = [] := by
  unfold unsignedStoreAt
  grind

@[simp, grind =]
theorem unsignedStoreAt_created : (unsignedStoreAt width addr value).created = none := by
  unfold unsignedStoreAt
  grind

@[simp, grind =]
theorem unsignedStoreAt_assigned : (unsignedStoreAt width addr value).assigned = none := by
  unfold unsignedStoreAt
  grind

@[simp, grind =]
theorem unsignedStoreAt_operands : (unsignedStoreAt width addr value).operands = [addr, value] := by
  unfold unsignedStoreAt
  grind

end Accesses

@[grind ←]
theorem zeroObjectBytes_tracks (h : N → dst ≠ .temp ctx.temp) :
    Tracks ctx N [] (zeroObjectBytes dst offset steps remaining) := by
  induction steps generalizing N offset remaining
  case zero => exact .pure (by grind)
  case succ hi =>
    unfold zeroObjectBytes
    split
    case isTrue  => exact .pure (by grind)
    case isFalse =>
      refine .quiet targetWordSize_respects fun word => .bind (by grind) fun addr ha => ?_
      refine .bind (hi <| by grind) fun rest hr => ?_
      grind

@[grind ←]
theorem copyObjectBytes_tracks (hd : N → dst ≠ .temp ctx.temp) (hs : N → src ≠ .temp ctx.temp) :
    Tracks ctx N [] (copyObjectBytes dst src offset steps remaining) := by
  induction steps generalizing N offset remaining
  case zero => exact .pure (by grind)
  case succ hi =>
    unfold copyObjectBytes
    split
    case isTrue  => exact .pure (by grind)
    case isFalse =>
      refine .quiet targetWordSize_respects fun word => .bind (by grind) fun dstAddr hda => ?_
      refine .bind (by grind) fun srcAddr hsa => .bind freshTemp_tracks fun val hv => ?_
      refine .bind (hi (by grind) (by grind)) fun rest hr => ?_
      refine .pure ?_
      simp [settled_iff, Known] at *
      grind

theorem coerceImmediateScalar_ne (h : coerceImmediateScalar signed size op = some coerced) :
    coerced ≠ .temp t := by
  unfold coerceImmediateScalar coerceWordImmediateScalar at h
  grind

end Objects

namespace Typing

variable {t : Typing} (ht : t.AllRespect ValueState.Quiet)
variable {op dst src : Operand} {lvalue : LValue}

-- An instruction that loads from an address.
theorem loadInstr_tracks {α : Type} [Emission α] {f : Instr → ValueM α} {out : Temp} {addr : Operand}
    (ht : t.AllRespect ValueState.Quiet)
    (hf : ∀ load : Instr, load.created = some out → load.assigned = none → load.nested = [] →
      load.operands = [addr] → Tracks ctx N J (f load)) :
    Tracks ctx N J (t.loadInstr out ty addr >>= f) := by
  unfold loadInstr
  rw [bind_assoc]
  refine .quiet (ht.typeSize _) fun size => ?_
  rw [pure_bind]
  split_ifs <;> exact hf _ rfl rfl rfl rfl

theorem storeInstr_tracks {α : Type} [Emission α] {f : Instr → ValueM α} {addr value : Operand}
    (ht : t.AllRespect ValueState.Quiet)
    (hf : ∀ store : Instr, store.created = none → store.assigned = none → store.nested = [] →
      store.operands = [addr, value] → Tracks ctx N J (f store)) :
    Tracks ctx N J (t.storeInstr ty addr value >>= f) := by
  unfold storeInstr
  rw [bind_assoc]
  refine .quiet (ht.typeSize _) fun size => ?_
  rw [pure_bind]
  split_ifs <;> exact hf _ rfl rfl rfl rfl

-- A name that is known to be that of an aggregate is found to be one.
theorem isAggregateTypeM_tracks {α : Type} [Emission α] {f : Bool → ValueM α}
    (hf : ∀ aggregate, (ctx.Aggregate ty → aggregate = true) → Tracks ctx N J (f aggregate)) :
    Tracks ctx N J (isAggregateTypeM ty >>= f) := by
  intro st a st' hr hs
  obtain ⟨_, _, hr, hr'⟩ := run_value_bind_iff.mp hr
  obtain ⟨rfl, rfl⟩ := run_isAggregateTypeM_iff.mp hr
  refine hf _ (fun ha => ?_) hr' hs
  cases ty
  case named => exact hs.names _ ha
  all_goals exact ha

include ht

@[grind ←]
theorem coerceScalar_tracks (h : N → op ≠ .temp ctx.temp) : Tracks ctx N [] (t.coerceScalar ty op) := by
  unfold coerceScalar
  split
  case h_1 => exact coerceBool_tracks h
  case h_2 =>
    refine .quiet (isIntegerTypeM_respects _) fun integer => ?_
    split
    case isTrue => grind
    case isFalse =>
      refine .quiet (ht.typeSize _) fun size => ?_
      split
      case isTrue => grind
      case isFalse =>
        split
        case h_1 hc => exact .pure <| by simp [settled_iff, coerceImmediateScalar_ne hc]
        case h_2    => grind

@[grind ←]
theorem coerceMaybeScalar_tracks (h : N → op ≠ .temp ctx.temp) :
    Tracks ctx N [] (t.coerceMaybeScalar mty op) := by
  unfold coerceMaybeScalar
  grind

@[grind ←]
theorem copyObject_tracks (hd : N → dst ≠ .temp ctx.temp) (hs : N → src ≠ .temp ctx.temp) :
    Tracks ctx N [] (t.copyObject dst src ty) := by
  unfold copyObject
  grind

@[grind ←]
theorem zeroObject_tracks (h : N → dst ≠ .temp ctx.temp) : Tracks ctx N [] (t.zeroObject dst ty) := by
  unfold zeroObject
  grind

@[grind ←]
theorem readLValue_tracks (h : N → Spares ctx.temp lvalue.operands) :
    Tracks ctx N [] (t.readLValue lvalue) := by
  unfold readLValue
  split
  case h_1 => exact coerceScalar_tracks ht (by simpa [LValue.operands] using h)
  case h_2 => grind
  case h_3 =>
    refine isAggregateTypeM_tracks fun aggregate _ => ?_
    split
    case isTrue  => grind
    case isFalse =>
      refine .bind freshTemp_tracks fun out ho => loadInstr_tracks ht fun load h₁ h₂ h₃ h₄ => .pure ?_
      simp [settled_iff, LValue.operands, h₁, h₂, h₃, h₄] at *
      grind

@[grind ←]
theorem writeLValue_tracks (h : N → Spares ctx.temp lvalue.operands) (hv : N → op ≠ .temp ctx.temp)
    (hl : ¬ctx.Scalar → AllAggregate ctx lvalue.locals) :
    Tracks ctx N [] (t.writeLValue lvalue op) := by
  unfold writeLValue
  split
  case h_1 temp ty =>
    refine isAggregateTypeM_tracks fun aggregate ha => ?_
    split
    case isTrue  => exact copyObject_tracks ht (by simpa [LValue.operands] using h) hv
    case isFalse hn =>
      refine .pure <| settled_iff.mpr ⟨fun hN hb => by simp [Instr.operands, Instr.nested, hv hN],
        fun hs => ?_, by simp [Instr.created, Instr.nested]⟩
      have ht : temp ≠ ctx.temp := fun he => hn <| ha <| hl hs ty <| by simp [LValue.locals, he]
      simpa [Instr.assigned, Instr.nested] using ht
  case h_2 addr ty =>
    have h : N → addr ≠ .temp ctx.temp := by simpa [LValue.operands] using h
    refine isAggregateTypeM_tracks fun aggregate _ => ?_
    split
    case isTrue  => exact copyObject_tracks ht h hv
    case isFalse =>
      refine storeInstr_tracks ht fun store h₁ h₂ h₃ h₄ => .pure ?_
      simp [settled_iff, h₁, h₂, h₃, h₄]
      grind

end Typing
end Hcc
