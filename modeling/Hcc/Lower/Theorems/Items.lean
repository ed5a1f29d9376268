import Hcc.Lower.Theorems.Steady.Statement
import Mathlib.Data.List.Range

open Stateful

namespace Hcc

variable {st st₁ st₂ st' : ValueState} {items new created : List DataItem} {pre : String}

section Labels

theorem dataLabel_injective (h : st.dataLabel n = st.dataLabel m) : n = m := by
  have h := congrArg String.toList h
  simp only [ValueState.dataLabel, String.toList_append, List.append_cancel_left_eq] at h
  have hd : Nat.toDigits 10 n = Nat.toDigits 10 m := by simpa [ToString.toString] using h
  have hn := congrArg (Nat.ofDigitChars 10 · 0) hd
  rwa [Nat.ofDigitChars_toDigits (by decide) (by decide), Nat.ofDigitChars_toDigits (by decide) (by decide)] at hn

-- The labels of pending items have been allocated.
def ValueState.Labelled (st : ValueState) : Prop :=
  ∀ item ∈ st.dataItems, ∃ n < st.nextLabel, item.label = st.dataLabel n

end Labels

-- The items that are added have the labels that have been allocated.
structure ValueState.Allocates (st : ValueState) (created : List DataItem) (st' : ValueState) : Prop where
  dataPrefix : st'.dataPrefix = st.dataPrefix
  nextLabel  : st.nextLabel ≤ st'.nextLabel
  labels     : (created.map (·.label)).Perm
               ((List.range' st.nextLabel (st'.nextLabel - st.nextLabel)).map st.dataLabel)

-- The items that are added are pending.
structure ValueState.Creates (st : ValueState) (created : List DataItem) (st' : ValueState) : Prop
    extends Allocates st created st' where
  items : st.Labelled → st'.dataItems = created.reverse ++ st.dataItems

namespace ValueState.Allocates

theorem dataLabel_eq (h : st.Allocates created st') : st'.dataLabel = st.dataLabel := by
  funext n
  rw [dataLabel, dataLabel, h.dataPrefix]

theorem other (hp : st'.dataPrefix = st.dataPrefix) (hl : st'.nextLabel = st.nextLabel) :
    st.Allocates [] st' where
  dataPrefix := hp
  nextLabel  := Nat.le_of_eq hl.symm
  labels     := by simp [hl]

theorem flush : st.Allocates [] { st with dataItems := [] } where
  dataPrefix := rfl
  nextLabel  := le_rfl
  labels     := by simp

theorem trans (h₁ : st.Allocates created₁ st₁) (h₂ : st₁.Allocates created₂ st₂) :
    st.Allocates (created₁ ++ created₂) st₂ where
  dataPrefix := h₂.dataPrefix.trans h₁.dataPrefix
  nextLabel  := h₁.nextLabel.trans h₂.nextLabel
  labels     := by
    have hr : List.range' st.nextLabel (st₂.nextLabel - st.nextLabel) =
        List.range' st.nextLabel (st₁.nextLabel - st.nextLabel) ++
          List.range' st₁.nextLabel (st₂.nextLabel - st₁.nextLabel) := by
      have := h₁.nextLabel
      have := h₂.nextLabel
      have hs : st₁.nextLabel = st.nextLabel + (st₁.nextLabel - st.nextLabel) := by omega
      conv_rhs => enter [2, 1]; rw [hs]
      rw [List.range'_append_1]
      congr 1
      omega
    rw [hr, List.map_append, List.map_append]
    exact h₁.labels.append <| h₁.dataLabel_eq ▸ h₂.labels

-- The label of an item is allocated before the items that its contents refer to are added.
theorem dataItem (values) (h : Allocates { st with nextLabel := st.nextLabel + 1 } created st₁) :
    st.Allocates (created ++ [⟨st.dataLabel st.nextLabel, values⟩])
      (st₁.addItem ⟨st.dataLabel st.nextLabel, values⟩) where
  dataPrefix := h.dataPrefix
  nextLabel  := (Nat.le_succ _).trans h.nextLabel
  labels     := by
    have hn : st.nextLabel + 1 ≤ st₁.nextLabel := h.nextLabel
    have hs : st₁.nextLabel - st.nextLabel = st₁.nextLabel - (st.nextLabel + 1) + 1 := by omega
    have hp : (created.map (·.label)).Perm
      ((List.range' (st.nextLabel + 1) (st₁.nextLabel - (st.nextLabel + 1))).map st.dataLabel) := h.labels
    rw [List.map_append]
    refine List.perm_append_comm.trans ?_
    show List.Perm (_ :: _) (List.map _ (List.range' _ (st₁.nextLabel - st.nextLabel)))
    rw [hs, List.range'_succ, List.map_cons]
    exact hp.cons _

theorem mem_labels (h : st.Allocates created st') (hi : item ∈ created) :
    ∃ n, st.nextLabel ≤ n ∧ n < st'.nextLabel ∧ item.label = st.dataLabel n := by
  have hm := h.labels.mem_iff.mp <| List.mem_map_of_mem hi
  have ⟨n, hn, he⟩ := List.mem_map.mp hm
  have ⟨h₁, h₂⟩ := List.mem_range'_1.mp hn
  exact ⟨n, h₁, by omega, he.symm⟩

end ValueState.Allocates
namespace ValueState.Creates

theorem other (hp : st'.dataPrefix = st.dataPrefix) (hl : st'.nextLabel = st.nextLabel)
    (hi : st'.dataItems = st.dataItems) : st.Creates [] st' where
  toAllocates := .other hp hl
  items _     := hi

theorem labelled (h : st.Creates created st') (hl : st.Labelled) : st'.Labelled := by
  intro item hi
  rw [h.dataLabel_eq]
  rw [h.items hl] at hi
  rcases List.mem_append.mp hi with hi | hi
  case inl =>
    have ⟨n, _, hn, he⟩ := h.mem_labels <| List.mem_reverse.mp hi
    exact ⟨n, hn, he⟩
  case inr =>
    have ⟨n, hn, he⟩ := hl item hi
    exact ⟨n, Nat.lt_of_lt_of_le hn h.nextLabel, he⟩

theorem trans (h₁ : st.Creates created₁ st₁) (h₂ : st₁.Creates created₂ st₂) :
    st.Creates (created₁ ++ created₂) st₂ where
  toAllocates := h₁.toAllocates.trans h₂.toAllocates
  items hl    := by
    rw [h₂.items <| h₁.labelled hl, h₁.items hl, List.reverse_append, List.append_assoc]

theorem dataItem (values) (h : Creates { st with nextLabel := st.nextLabel + 1 } created st₁) :
    st.Creates (created ++ [⟨st.dataLabel st.nextLabel, values⟩])
      (st₁.addItem ⟨st.dataLabel st.nextLabel, values⟩) where
  toAllocates := h.toAllocates.dataItem values
  items hl    := by
    have hl' : ({ st with nextLabel := st.nextLabel + 1 } : ValueState).Labelled := by
      intro item hi
      have ⟨n, hn, he⟩ := hl item hi
      exact ⟨n, Nat.lt_succ_of_lt hn, he⟩
    have hi : st₁.dataItems = created.reverse ++ st.dataItems := h.items hl'
    have hn : ∀ item ∈ st₁.dataItems, item.label ≠ st.dataLabel st.nextLabel := by
      intro item hm he
      rw [hi] at hm
      rcases List.mem_append.mp hm with hm | hm
      case inl =>
        have ⟨n, hl, _, hd⟩ := h.mem_labels <| List.mem_reverse.mp hm
        have he : n = st.nextLabel := dataLabel_injective <| hd.symm.trans he
        have hl : st.nextLabel + 1 ≤ n := hl
        omega
      case inr =>
        have ⟨n, hl, hd⟩ := hl item hm
        have := dataLabel_injective <| hd.symm.trans he
        omega
    rw [List.reverse_append, List.reverse_singleton, List.singleton_append, List.cons_append, ←hi]
    exact congrArg (List.cons _) <| List.filter_eq_self.mpr fun item hm => by simpa using hn item hm

theorem currentFunction {f g : Option String} (h : Creates { st with currentFunction := f } created st') :
    st.Creates created { st' with currentFunction := g } := by
  have h₁ : st.Creates [] { st with currentFunction := f } := .other rfl rfl rfl
  have h₂ : st'.Creates [] { st' with currentFunction := g } := .other rfl rfl rfl
  simpa using (h₁.trans h).trans h₂

end ValueState.Creates

def ValueState.CreatesSome (st st' : ValueState) : Prop :=
  ∃ created, st.Creates created st'

instance : StableFunction ValueState.CreatesSome where
  refl _            := ⟨[], .other rfl rfl rfl⟩
  trans             := fun ⟨_, h₁⟩ ⟨_, h₂⟩ => ⟨_, h₁.trans h₂⟩
  freshTemp _       := ⟨[], .other rfl rfl rfl⟩
  types _ _ _ _ _   := ⟨[], .other rfl rfl rfl⟩
  dataItem values   := fun ⟨_, h⟩ => ⟨_, h.dataItem values⟩
  currentFunction _ := fun ⟨_, h⟩ => ⟨_, h.currentFunction⟩

-- The declaration of names does not add items.
def ValueState.SameItems (st st' : ValueState) : Prop :=
  st'.dataPrefix = st.dataPrefix ∧ st'.nextLabel = st.nextLabel ∧ st'.dataItems = st.dataItems

instance : TameSymbols ValueState.SameItems where
  refl _            := ⟨rfl, rfl, rfl⟩
  trans h₁ h₂       := ⟨h₂.1.trans h₁.1, h₂.2.1.trans h₁.2.1, h₂.2.2.trans h₁.2.2⟩
  types _ _ _ _ _   := ⟨rfl, rfl, rfl⟩
  symbols _ _ _ _ _ := ⟨rfl, rfl, rfl⟩

section Output

-- The data items that are written.
def writtenItems (items : List TopItemIr) : List DataItem :=
  items.filterMap fun
    | .data item  => some item
    | .function _ => none

@[simp]
theorem writtenItems_append {items₁ items₂ : List TopItemIr} :
    writtenItems (items₁ ++ items₂) = writtenItems items₁ ++ writtenItems items₂ :=
  List.filterMap_append

@[simp]
theorem writtenItems_data : writtenItems (items.map .data) = items := by
  induction items
  case nil     => rfl
  case cons hi => simp [writtenItems]

def isReserved (item : DataItem) : Bool :=
  isPrefixedBy "HCC_DATA_" item.label

-- All items that are added are written, next to those of declared objects.
structure Writes (st : ValueState) (created : List DataItem) (items : List TopItemIr)
    (st' : ValueState) : Prop where
  allocates : st.Allocates created st'
  pending   : st'.dataItems = []
  written   : (writtenItems items).filter isReserved = created

variable {items₁ items₂ tops : List TopItemIr} {c c' c₁ : CompileState} {fuel : Nat}

theorem run_pendingDataItemsIr_iff : Run pendingDataItemsIr c tops c' ↔
    c.dataItems.reverse.map .data = tops ∧ { c with dataItems := [] } = c' := by
  simp only [pendingDataItemsIr, run_bind_iff, run_get_iff, run_modify_iff, run_pure_iff]
  constructor
  · rintro ⟨_, _, ⟨rfl, rfl⟩, _, _, rfl, rfl, rfl⟩
    exact ⟨rfl, rfl⟩
  · rintro ⟨rfl, rfl⟩
    exact ⟨_, _, ⟨rfl, rfl⟩, ⟨⟩, _, rfl, rfl, rfl⟩

namespace Writes

theorem nil (h : st.SameItems st') (hp : st.dataItems = []) : Writes st [] [] st' where
  allocates := .other h.1 h.2.1
  pending   := h.2.2.trans hp
  written   := rfl

theorem append (h₁ : Writes st created₁ items₁ st₁) (h₂ : Writes st₁ created₂ items₂ st₂) :
    Writes st (created₁ ++ created₂) (items₁ ++ items₂) st₂ where
  allocates := h₁.allocates.trans h₂.allocates
  pending   := h₂.pending
  written   := by rw [writtenItems_append, List.filter_append, h₁.written, h₂.written]

end Writes

theorem isPrefixedBy_append {name : String} (h : isPrefixedBy pre name) (rest) :
    isPrefixedBy pre (name ++ rest) := by
  rw [isPrefixedBy, List.isPrefixOf_iff_prefix] at h
  rw [isPrefixedBy, String.toList_append, List.isPrefixOf_iff_prefix]
  exact h.trans <| List.prefix_append ..

theorem filter_created (hr : isPrefixedBy "HCC_DATA_" st.dataPrefix) (h : st.Allocates created st') :
    created.filter isReserved = created := by
  refine List.filter_eq_self.mpr fun item hi => ?_
  have ⟨n, _, _, he⟩ := h.mem_labels hi
  rw [isReserved, he]
  exact isPrefixedBy_append (isPrefixedBy_append hr _) _

-- The pending items are written behind an item that does not have a reserved label.
theorem writes_pending {top : TopItemIr} (hr : isPrefixedBy "HCC_DATA_" c.dataPrefix) (hp : c.dataItems = [])
    (ht : (writtenItems [top]).filter isReserved = []) (h : c.Creates created c₁.toValueState)
    (hd : Run pendingDataItemsIr c₁ tops c') : Writes c.toValueState created (top :: tops) c'.toValueState := by
  obtain ⟨rfl, rfl⟩ := run_pendingDataItemsIr_iff.mp hd
  have hi := h.items fun item hm => absurd hm <| by simp [hp]
  have hc := filter_created hr h.toAllocates
  rw [hp, List.append_nil] at hi
  refine ⟨List.append_nil created ▸ h.toAllocates.trans .flush, rfl, ?_⟩
  rw [←List.singleton_append, writtenItems_append, List.filter_append, ht, hi, List.reverse_reverse,
    writtenItems_data, hc, List.nil_append]

theorem run_bindGlobal_reserved (hr : Run (bindGlobal name ty scope) st a st') :
    isPrefixedBy "HCC_DATA_" name = false := by
  have ⟨_, _, hj, _⟩ := run_value_bind_iff.mp hr
  rw [rejectReservedSymbol] at hj
  split at hj
  case isTrue  => exact absurd hj not_run_value_throw
  case isFalse h =>
    rw [Bool.or_eq_true, not_or] at h
    exact Bool.eq_false_of_not_eq_true h.right

theorem run_onValues_of {m : ValueM α} {e e' : ExprState} (hr : Run (onValues m) e a e') :
    Run (m e.vars) e.toValueState a e'.toValueState := by
  obtain ⟨_, hv, rfl⟩ := run_onValues_iff.mp hr
  exact hv

theorem run_onState_of {m : ValueM α} (hr : Run (onState m) c a c') :
    Run (m c.vars) c.toValueState a c'.toValueState := by
  have hr : Run (onExprs (onValues m)) c a c' := hr
  obtain ⟨_, he, rfl⟩ := run_within_iff.mp hr
  exact run_onValues_of he

theorem creates_of_same (h : st.SameItems st') : st.Creates [] st' :=
  .other h.1 h.2.1 h.2.2

theorem writtenItems_function : (writtenItems [.function fn]).filter isReserved = [] := rfl

theorem registerGlobalIr_writes (hr : isPrefixedBy "HCC_DATA_" c.dataPrefix) (hp : c.dataItems = [])
    (h : Run (registerGlobalIr fuel decl) c tops c') :
    ∃ created, Writes c.toValueState created tops c'.toValueState := by
  simp only [registerGlobalIr, run_bind_iff, run_pure_iff] at h
  obtain ⟨_, c₁, ht, _, c₂, hb, values, c₃, hg, pending, _, hd, rfl, rfl⟩ := h
  have h₁ := registerTypeAggregates_respects (R := ValueState.SameItems) _ <| run_onState_of ht
  have h₂ := bindGlobal_respects (R := ValueState.SameItems) _ _ <| run_onState_of hb
  obtain ⟨created, h₃⟩ : c₂.CreatesSome c₃.toValueState :=
    Typing.globalData_respects (typing_respects fuel) _ _ _ <| run_onState_of hg
  have hn := run_bindGlobal_reserved <| run_onState_of hb
  refine ⟨created, writes_pending hr hp ?_ ((creates_of_same h₁).trans <| (creates_of_same h₂).trans h₃) hd⟩
  simpa [writtenItems, isReserved] using hn

theorem lowerFunctionDecl_writes (hr : isPrefixedBy "HCC_DATA_" c.dataPrefix) (hp : c.dataItems = [])
    (h : Run (lowerFunctionDecl fuel name params body) c tops c') :
    ∃ created, Writes c.toValueState created tops c'.toValueState := by
  simp only [lowerFunctionDecl, run_bind_iff, run_pure_iff] at h
  obtain ⟨_, c₁, hi, fn, c₂, hf, pending, _, hd, rfl, rfl⟩ := h
  have h₁ := registerImplicitCalls_respects (R := ValueState.SameItems) _ _ <| run_onState_of hi
  obtain ⟨created, h₂⟩ : c₁.CreatesSome c₂.toValueState :=
    lowerFunction_conforms (exprLowering_conforms (R := ValueState.CreatesSome) fuel) _ _ _ _ hf
  exact ⟨created, writes_pending hr hp writtenItems_function ((creates_of_same h₁).trans h₂) hd⟩

theorem Writes.dataPrefix (h : Writes st created items₁ st') : st'.dataPrefix = st.dataPrefix :=
  h.allocates.dataPrefix

theorem registerGlobalsIr_writes (hr : isPrefixedBy "HCC_DATA_" c.dataPrefix) (hp : c.dataItems = [])
    (h : Run (registerGlobalsIr fuel decls) c tops c') :
    ∃ created, Writes c.toValueState created tops c'.toValueState := by
  induction decls generalizing c tops
  case nil =>
    obtain ⟨rfl, rfl⟩ := run_pure_iff.mp h
    exact ⟨[], .nil ⟨rfl, rfl, rfl⟩ hp⟩
  case cons hi =>
    simp only [registerGlobalsIr, run_bind_iff, run_pure_iff] at h
    obtain ⟨items, c₁, hg, rest, _, hs, rfl, rfl⟩ := h
    obtain ⟨created₁, h₁⟩ := registerGlobalIr_writes hr hp hg
    obtain ⟨created₂, h₂⟩ := hi (h₁.dataPrefix ▸ hr) h₁.pending hs
    exact ⟨_, h₁.append h₂⟩

theorem registerTopDeclIr_writes (hr : isPrefixedBy "HCC_DATA_" c.dataPrefix) (hp : c.dataItems = [])
    (h : Run (registerTopDeclIr fuel decl) c tops c') :
    ∃ created, Writes c.toValueState created tops c'.toValueState := by
  unfold registerTopDeclIr at h
  split at h
  case h_1 => exact registerGlobalIr_writes hr hp h
  case h_2 => exact registerGlobalsIr_writes hr hp h
  case h_3 =>
    simp only [run_bind_iff, run_pure_iff] at h
    obtain ⟨_, _, hs, rfl, rfl⟩ := h
    have hs := registerTopDeclShallowState_respects (R := ValueState.SameItems) _ <| run_onState_of hs
    exact ⟨[], .nil hs hp⟩

theorem registerTopDeclsIr_writes (hr : isPrefixedBy "HCC_DATA_" c.dataPrefix) (hp : c.dataItems = [])
    (h : Run (registerTopDeclsIr fuel decls) c tops c') :
    ∃ created, Writes c.toValueState created tops c'.toValueState := by
  induction decls generalizing c tops
  case nil =>
    obtain ⟨rfl, rfl⟩ := run_pure_iff.mp h
    exact ⟨[], .nil ⟨rfl, rfl, rfl⟩ hp⟩
  case cons hi =>
    simp only [registerTopDeclsIr, run_bind_iff, run_pure_iff] at h
    obtain ⟨items, c₁, hg, rest, _, hs, rfl, rfl⟩ := h
    obtain ⟨created₁, h₁⟩ := registerTopDeclIr_writes hr hp hg
    obtain ⟨created₂, h₂⟩ := hi (h₁.dataPrefix ▸ hr) h₁.pending hs
    exact ⟨_, h₁.append h₂⟩

theorem lowerAndEmitTopDeclsIr_writes (hr : isPrefixedBy "HCC_DATA_" c.dataPrefix) (hp : c.dataItems = [])
    (h : Run (lowerAndEmitTopDeclsIr fuel decls) c tops c') :
    ∃ created, Writes c.toValueState created tops c'.toValueState := by
  fun_induction lowerAndEmitTopDeclsIr fuel decls generalizing c tops
  case case1 =>
    obtain ⟨rfl, rfl⟩ := run_pure_iff.mp h
    exact ⟨[], .nil ⟨rfl, rfl, rfl⟩ hp⟩
  case case2 hi =>
    simp only [run_bind_iff, run_pure_iff] at h
    obtain ⟨items, c₁, hg, rest, _, hs, rfl, rfl⟩ := h
    obtain ⟨created₁, h₁⟩ := lowerFunctionDecl_writes hr hp hg
    obtain ⟨created₂, h₂⟩ := hi (h₁.dataPrefix ▸ hr) h₁.pending hs
    exact ⟨_, h₁.append h₂⟩
  case case3 hi => exact hi hr hp h

theorem lowerProgram_writes (hr : isPrefixedBy "HCC_DATA_" c.dataPrefix) (hp : c.dataItems = [])
    (h : Run (lowerProgram fuel decls) c tops c') :
    ∃ created, Writes c.toValueState created tops c'.toValueState := by
  simp only [lowerProgram, run_bind_iff, run_pure_iff] at h
  obtain ⟨_, c₁, hb, items, c₂, hg, rest, _, hs, rfl, rfl⟩ := h
  have hb := registerBuiltinStructs_respects (R := ValueState.SameItems) <| run_onState_of hb
  have h₀ : Writes c.toValueState [] [] c₁.toValueState := .nil hb hp
  obtain ⟨created₁, h₁⟩ := registerTopDeclsIr_writes (h₀.dataPrefix ▸ hr) h₀.pending hg
  have h₁ := h₀.append h₁
  obtain ⟨created₂, h₂⟩ := lowerAndEmitTopDeclsIr_writes (h₁.dataPrefix ▸ hr) h₁.pending hs
  exact ⟨_, h₁.append h₂⟩

theorem dataLabelPrefix_reserved (path) : isPrefixedBy "HCC_DATA_" (dataLabelPrefix path) := by
  unfold dataLabelPrefix
  split
  case h_1 => decide
  case h_2 => exact isPrefixedBy_append (by decide) _

theorem count_labels (h : st.Allocates created st') (h₁ : st.nextLabel ≤ n) (h₂ : n < st'.nextLabel) :
    (created.map (·.label)).count (st.dataLabel n) = 1 := by
  have hi : Function.Injective st.dataLabel := fun _ _ => dataLabel_injective
  rw [h.labels.count_eq, List.count_map_of_injective _ _ hi]
  exact List.count_eq_one_of_mem List.nodup_range' <| List.mem_range'_1.mpr ⟨h₁, by omega⟩

theorem count_filter {label : String} (h : isPrefixedBy "HCC_DATA_" label) :
    ((items.filter isReserved).map (·.label)).count label = (items.map (·.label)).count label := by
  induction items
  case nil          => rfl
  case cons item _ hi =>
    by_cases hr : isReserved item
    case pos => simp [hr, hi, List.count_cons]
    case neg =>
      have hn : item.label ≠ label := fun he => hr <| by rw [isReserved, he, h]
      simp [hr, hi, hn]

theorem lowerExpr_pending (hl : st.Labelled) (h : Run ((lowering fuel).lowerExpr expr scope) st a st') :
    st.dataItems <:+ st'.dataItems := by
  have ⟨created, hc⟩ : st.CreatesSome st' := (lowering_respects fuel).lowerExpr expr h
  exact ⟨created.reverse, (hc.items hl).symm⟩

theorem lowerStatementsFrom_pending (hl : c.toValueState.Labelled)
    (h : Run (lowerStatementsFrom (exprLowering fuel) fuel bid instrs stmts term) c blocks c') :
    c.dataItems <:+ c'.dataItems := by
  have ⟨created, hc⟩ : c.CreatesSome c'.toValueState :=
    lowerStatementsFrom_conforms (exprLowering_conforms (R := ValueState.CreatesSome) fuel) _ _ _ _ _ h
  exact ⟨created.reverse, (hc.items hl).symm⟩

theorem globalData_pending (hl : st.Labelled) (h : Run ((typing fuel).globalData fuel ty init scope) st a st') :
    st.dataItems <:+ st'.dataItems := by
  have ⟨created, hc⟩ : st.CreatesSome st' := Typing.globalData_respects (typing_respects fuel) _ _ _ h
  exact ⟨created.reverse, (hc.items hl).symm⟩

theorem lowerExpr_string_item (h : Run ((lowering fuel).lowerExpr (.string text) scope) st (instrs, op) st') :
    op = .global (st.dataLabel st.nextLabel) ∧
      ⟨st.dataLabel st.nextLabel, (stringBytes text).map .byte⟩ ∈ st'.dataItems := by
  cases fuel
  case zero => exact absurd h not_run_outOfFuel
  case succ =>
    obtain ⟨_, _, hf, h⟩ := run_value_bind_iff.mp h
    obtain ⟨_, _, ha, h⟩ := run_value_bind_iff.mp h
    obtain ⟨rfl, rfl⟩ := run_freshDataLabel_iff.mp hf
    obtain rfl := run_addDataItem_iff.mp ha
    obtain ⟨hp, rfl⟩ := run_value_pure_iff.mp h
    exact ⟨(Prod.mk.inj hp).right.symm, List.mem_cons_self⟩

theorem localDataItem_item (h : Run ((lowering fuel).localDataItem fuel ty init scope) st a st') :
    ∃ values st₁, a = some (st.dataLabel st.nextLabel) ∧
      Run ((lowering fuel).globalData fuel ty init scope) { st with nextLabel := st.nextLabel + 1 } values st₁ ∧
      ⟨st.dataLabel st.nextLabel, values⟩ ∈ st'.dataItems := by
  obtain ⟨_, _, hf, h⟩ := run_value_bind_iff.mp h
  obtain ⟨values, st₁, hg, h⟩ := run_value_bind_iff.mp h
  obtain ⟨_, _, ha, h⟩ := run_value_bind_iff.mp h
  obtain ⟨rfl, rfl⟩ := run_freshDataLabel_iff.mp hf
  obtain rfl := run_addDataItem_iff.mp ha
  obtain ⟨rfl, rfl⟩ := run_value_pure_iff.mp h
  exact ⟨values, st₁, rfl, hg, List.mem_cons_self⟩

theorem run_lowerFunctionDecl (hp : c.dataItems = []) (h : Run (lowerFunctionDecl fuel name params body) c tops c') :
    ∃ fn c₁ c₂, Run (lowerFunction (exprLowering fuel) fuel name params body) c₁ fn c₂ ∧ c₁.dataItems = [] ∧
      tops = .function fn :: c₂.dataItems.reverse.map .data ∧ c'.dataItems = [] := by
  simp only [lowerFunctionDecl, run_bind_iff, run_pure_iff] at h
  obtain ⟨_, c₁, hi, fn, c₂, hf, pending, _, hd, rfl, rfl⟩ := h
  obtain ⟨rfl, rfl⟩ := run_pendingDataItemsIr_iff.mp hd
  have h₁ := registerImplicitCalls_respects (R := ValueState.SameItems) _ _ <| run_onState_of hi
  exact ⟨fn, c₁, c₂, hf, h₁.2.2.trans hp, rfl, rfl⟩

theorem lowerProgram_count (hr : isPrefixedBy "HCC_DATA_" pre)
    (h : Run (lowerProgram fuel decls) (initialCompileStateForTarget pre bits) tops c) :
    c.dataItems = [] ∧
      ∀ n < c.nextLabel, ((writtenItems tops).map (·.label)).count (pre ++ "_" ++ ("L" ++ toString n)) = 1 := by
  have ⟨created, h⟩ := lowerProgram_writes hr rfl h
  refine ⟨h.pending, fun n hn => ?_⟩
  have hl := isPrefixedBy_append (isPrefixedBy_append hr "_") ("L" ++ toString n)
  rw [←count_filter hl, h.written]
  exact count_labels h.allocates (Nat.zero_le _) hn

end Output
end Hcc
