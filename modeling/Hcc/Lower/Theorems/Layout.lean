import Hcc.Library.Keeps
import Hcc.Compile.Run
import Hcc.Lower.Layout
import Hcc.SymbolTable.Theorems.Balance

open Stateful RecordLayout

-- The sizes and alignments that are computed are those of the layout.
namespace Hcc

variable {tags : Tags} {bits fuel : Nat} {st st' : ValueState} {ty ty' : CType} {s s' : Slot} {fields : List Field}
variable {isUnion : Bool} {name : String} {bound : Expr} {m n word size : Int} {t : Typing} {slot : CType → Slot}

section Layouts

theorem scalarSlot_wellFormed (h : size ∈ [1, 2, 4, 8, 16]) : (scalarSlot size).WellFormed := by
  simp only [List.mem_cons, List.not_mem_nil, or_false] at h
  rcases h with rfl | rfl | rfl | rfl | rfl
  · exact ⟨⟨0, rfl⟩, by decide, by decide⟩
  · exact ⟨⟨1, rfl⟩, by decide, by decide⟩
  · exact ⟨⟨2, rfl⟩, by decide, by decide⟩
  · exact ⟨⟨3, rfl⟩, by decide, by decide⟩
  · exact ⟨⟨3, rfl⟩, by decide, by decide⟩

theorem namedIntegerSize_mem (h : namedIntegerSize name = some size) : size ∈ [1, 2, 4, 8, 16] := by
  unfold namedIntegerSize at h
  split_ifs at h <;> cases h <;> decide

theorem scalarSize_mem (h : scalarSize (wordSize bits) ty = some size) : size ∈ [1, 2, 4, 8, 16] := by
  have hw : wordSize bits ∈ [1, 2, 4, 8, 16] := by
    unfold wordSize
    split <;> decide
  cases ty
  case named name =>
    obtain ⟨n, hn, rfl⟩ := Option.map_eq_some_iff.mp h
    split
    case isTrue  => exact hw
    case isFalse => exact namedIntegerSize_mem hn
  all_goals first | cases h; assumption | cases h; decide | cases h

theorem HasLayout.wellFormed (h : HasLayout tags bits ty s) : s.WellFormed := by
  induction h
  case scalar h          => exact scalarSlot_wellFormed <| scalarSize_mem h
  case array hn hi       => exact ⟨hi.align, Int.mul_nonneg hi.size hn, hi.dvd.mul_right _⟩
  case unbounded hi      => exact hi
  case record slot _ _ hi =>
    refine record_wellFormed fun s hs => ?_
    obtain ⟨f, hf, rfl⟩ := List.mem_map.mp hs
    exact hi f hf

theorem FixedBound.unique (h : FixedBound bits bound n) (h' : FixedBound bits bound m) : n = m := by
  obtain ⟨_, _, _, _, _, hb, hr⟩ := h.reached
  exact Option.some.inj <| (h.sound hb hr).right.symm.trans (h'.sound hb hr).right

theorem Tags.Defines.scalarSize_eq (h : tags.Defines ty isUnion fields) : scalarSize word ty = none := by
  cases ty
  case named name =>
    cases hn : namedIntegerSize name
    case none => simp [scalarSize, hn]
    case some =>
      have hf : tags.fields name = none := tags.named <| by simp [hn]
      exact nomatch hf.symm.trans h
  all_goals first | rfl | exact h.elim

theorem Tags.Defines.unique {isUnion' fields'} (h : tags.Defines ty isUnion fields)
    (h' : tags.Defines ty isUnion' fields') : isUnion = isUnion' ∧ fields = fields' := by
  cases ty
  case structDef        => exact ⟨h.left.trans h'.left.symm, h.right.symm.trans h'.right⟩
  case unionDef         => exact ⟨h.left.trans h'.left.symm, h.right.symm.trans h'.right⟩
  case structNamed      => exact ⟨h.left.trans h'.left.symm, h.right.left.symm.trans h'.right.left⟩
  case unionNamed       => exact ⟨h.left.trans h'.left.symm, h.right.left.symm.trans h'.right.left⟩
  case struct           => exact Prod.mk.inj <| Option.some.inj <| h.symm.trans h'
  case union            => exact Prod.mk.inj <| Option.some.inj <| h.symm.trans h'
  case named            => exact Prod.mk.inj <| Option.some.inj <| h.symm.trans h'
  all_goals exact h.elim

-- A type has one layout.
theorem HasLayout.unique (h : HasLayout tags bits ty s) (h' : HasLayout tags bits ty s') : s = s' := by
  induction h generalizing s'
  case scalar h =>
    cases h' with
    | scalar h'      => rw [Option.some.inj <| h.symm.trans h']
    | record _ hd' _ => exact nomatch hd'.scalarSize_eq.symm.trans h
    | array          => cases h
    | unbounded      => cases h
  case array hb _ hi =>
    cases h' with
    | array h' hb' _ => rw [hi h', hb.unique hb']
    | scalar h'      => cases h'
    | record _ hd' _ => exact hd'.elim
  case unbounded hi =>
    cases h' with
    | unbounded h'   => exact hi h'
    | scalar h'      => cases h'
    | record _ hd' _ => exact hd'.elim
  case record slot hd _ hi =>
    cases h' with
    | scalar h'          => exact nomatch hd.scalarSize_eq.symm.trans h'
    | array              => exact hd.elim
    | unbounded          => exact hd.elim
    | record slot' hd' h' =>
      obtain ⟨rfl, rfl⟩ := hd.unique hd'
      exact congrArg _ <| List.map_congr_left fun f hf => hi f hf <| h' f hf

end Layouts

section States

variable {known : Set String} {definition : Bool × List Field}

-- Nothing has been recorded yet.
theorem ValueState.Layouts.initial : ({ targetBits := bits } : ValueState).Layouts tags bits ∅ where
  target  := rfl
  structs := ⟨SymbolMap.ordered_empty, fun h => by cases h⟩
  known   := fun _ h => h.elim
  sizes   := ⟨SymbolMap.ordered_empty, fun h => by cases h⟩
  members := ⟨SymbolMap.ordered_empty, fun h => by cases h⟩

theorem ValueState.Layouts.weaken (h : st.Layouts tags bits (insert name known)) : st.Layouts tags bits known :=
  { h with known := fun other ho => h.known other <| .inr ho }

theorem ValueState.Layouts.learn (h : st.Layouts tags bits known)
    (hn : symbolMapLookup name st.structs = some definition) : st.Layouts tags bits (insert name known) where
  target  := h.target
  structs := h.structs
  sizes   := h.sizes
  members := h.members
  known   := by
    rintro other (rfl | ho)
    · rw [hn]
      rfl
    · exact h.known other ho

theorem ValueState.Layouts.bind (h : st.Layouts tags bits known) (hn : tags.fields name = some definition) :
    ({ st with
      structs       := symbolMapInsert name definition st.structs
      structSizes   := symbolMapDelete name st.structSizes
      structMembers := symbolMapDelete name st.structMembers } : ValueState).Layouts tags bits known where
  target  := h.target
  structs := by
    refine ⟨h.structs.left.insert, fun hl => ?_⟩
    rw [h.structs.left.lookup_insert] at hl
    split_ifs at hl with hk
    case pos => exact hk ▸ hl ▸ hn
    case neg => exact h.structs.right hl
  known   := by
    intro other ho
    rw [h.structs.left.lookup_insert]
    split
    case isTrue  => rfl
    case isFalse => exact h.known other ho
  sizes   := by
    refine ⟨h.sizes.left.delete, fun hl => ?_⟩
    rw [h.sizes.left.lookup_delete] at hl
    split_ifs at hl with hk
    rw [h.structs.left.lookup_insert, if_neg hk]
    exact h.sizes.right hl
  members := by
    refine ⟨h.members.left.delete, fun hl => ?_⟩
    rw [h.members.left.lookup_delete] at hl
    split_ifs at hl
    exact h.members.right hl

theorem ValueState.Layouts.cacheSize (h : st.Layouts tags bits known) (hk : name ∈ known)
    (hs : ∀ s, HasLayout tags bits (.struct name) s → size = s.size) :
    ({ st with structSizes := symbolMapInsert name size st.structSizes } : ValueState).Layouts tags bits known where
  target  := h.target
  structs := h.structs
  known   := h.known
  members := h.members
  sizes   := by
    refine ⟨h.sizes.left.insert, fun hl => ?_⟩
    rw [h.sizes.left.lookup_insert] at hl
    split_ifs at hl with hn
    case pos =>
      subst hn
      cases hl
      exact ⟨h.known _ hk, hs⟩
    case neg => exact h.sizes.right hl

theorem ValueState.Layouts.cacheMember {field : String} {info : CType × Int} {i : Nat}
    (h : st.Layouts tags bits known) (hn : tags.fields name = some (isUnion, fields))
    (hm : Member tags bits isUnion fields i field info.1 info.2) :
    ({ st with structMembers := symbolMapInsert name (symbolMapInsert field info
      ((symbolMapLookup name st.structMembers).getD symbolMapEmpty)) st.structMembers } : ValueState).Layouts
      tags bits known where
  target  := h.target
  structs := h.structs
  known   := h.known
  sizes   := h.sizes
  members := by
    refine ⟨h.members.left.insert, fun {tag _} hl => ?_⟩
    rw [h.members.left.lookup_insert] at hl
    split_ifs at hl with hk
    case neg => exact h.members.right hl
    case pos =>
      subst hk
      cases hl
      have ho : ((symbolMapLookup tag st.structMembers).getD symbolMapEmpty).Ordered := by
        cases hc : symbolMapLookup tag st.structMembers
        case none         => exact SymbolMap.ordered_empty
        case some members => exact (h.members.right hc).left
      refine ⟨ho.insert, fun hl => ?_⟩
      rw [ho.lookup_insert] at hl
      split_ifs at hl with hf
      case pos =>
        cases hl
        exact hf ▸ ⟨isUnion, fields, i, hn, hm⟩
      case neg =>
        cases hc : symbolMapLookup tag st.structMembers
        case none         => simp [hc] at hl
        case some members => exact (h.members.right hc).right <| by simpa [hc] using hl

end States

section Computations

variable {α β : Type} {act : ValueM α} {f : α → ValueM β} {p q : α → Prop} {r : β → Prop}

-- The results of a computation have the property if what is recorded of the tags is true, and it stays true.
def Computes (tags : Tags) (bits : Nat) (act : ValueM α) (p : α → Prop) : Prop :=
  ∀ known scope, Keeps (ValueState.Layouts tags bits known) (act scope) p

theorem Computes.pure {a : α} (h : p a) : Computes tags bits (Pure.pure a) p :=
  fun _ _ => Keeps.pure h

theorem Computes.bind (ha : Computes tags bits act p) (hf : ∀ a, p a → Computes tags bits (f a) r) :
    Computes tags bits (act >>= f) r :=
  fun known scope => (ha known scope).bind fun a h => hf a h known scope

theorem Computes.mono (ha : Computes tags bits act p) (h : ∀ a, p a → q a) : Computes tags bits act q :=
  fun known scope => (ha known scope).mono h

theorem Computes.throw {e : String} : Computes tags bits (throw e : ValueM α) p :=
  fun _ _ => Keeps.throw

theorem Computes.outOfFuel : Computes tags bits (fun _ => Stateful.outOfFuel : ValueM α) p :=
  fun _ _ => Keeps.outOfFuel

theorem targetWordSize_computes : Computes tags bits targetWordSize (· = wordSize bits) :=
  fun _ _ => Keeps.get.bind fun _ h => .pure <| by rw [h.target, wordSize]

theorem bindStruct_computes (h : tags.fields name = some (isUnion, fields)) :
    Computes tags bits (bindStruct name isUnion fields) fun _ => True :=
  fun _ _ => Keeps.modify fun _ hs => hs.bind h

theorem lookupStruct_computes : Computes tags bits (lookupStruct name) fun found =>
    ∀ definition ∈ found, tags.fields name = some definition :=
  fun _ _ => Keeps.get.bind fun _ h => .pure fun _ => h.structs.right

theorem lookupStructSizeCache_computes : Computes tags bits (lookupStructSizeCache name) fun found =>
    ∀ size ∈ found, ∀ s, HasLayout tags bits (.struct name) s → size = s.size :=
  fun _ _ => Keeps.get.bind fun _ h => .pure fun _ hs => (h.sizes.right hs).right

end Computations

section Sizes

theorem alignUp_eq {x a : Int} (h : 0 < a) : alignUp x a = RecordLayout.alignUp x a := by
  rw [alignUp, RecordLayout.alignUp, Int.neg_emod]
  split_ifs with h₀ h₁ h₁
  · exact (add_zero x).symm
  · exact absurd (Int.dvd_of_emod_eq_zero h₀) h₁
  · exact absurd (Int.emod_eq_zero_of_dvd h₁) h₀
  · omega

-- The size and the alignment of the type are computed as its layout says.
structure Lays (tags : Tags) (bits : Nat) (t : Typing) (ty : CType) (s : Slot) : Prop where
  size  : Computes tags bits (t.typeSize ty) (· = s.size)
  align : Computes tags bits (t.typeAlign ty) (· = s.align)

theorem foldAggregateFields_computes {x a : Int} (h : ∀ f ∈ fields, Lays tags bits t f.type (slot f.type))
    (hw : ∀ f ∈ fields, (slot f.type).WellFormed) (ha : 1 ≤ a) :
    Computes tags bits (t.foldAggregateFields x a fields) (· =
      (finish x (fields.map (slot ·.type)), max a (maxAlign (fields.map (slot ·.type))))) := by
  induction fields generalizing x a
  case nil => exact .pure <| by rw [List.map_nil, maxAlign, List.foldr_nil, max_eq_left ha]; rfl
  case cons f fields hi =>
    have h := List.forall_mem_cons.mp h
    have hw := List.forall_mem_cons.mp hw
    cases f
    refine h.left.align.bind fun _ hal => h.left.size.bind fun _ hsz => ?_
    subst hal hsz
    refine (hi h.right hw.right <| ha.trans <| le_max_left ..).mono fun r hr => ?_
    rw [hr, max_assoc, alignUp_eq hw.left.pos]
    rfl

theorem unionFields_computes (h : ∀ f ∈ fields, Lays tags bits t f.type (slot f.type)) :
    Computes tags bits (t.unionFields fields)
      (· = (maxSize (fields.map (slot ·.type)), maxAlign (fields.map (slot ·.type)))) := by
  induction fields
  case nil => exact .pure rfl
  case cons f fields hi =>
    have h := List.forall_mem_cons.mp h
    cases f
    refine h.left.size.bind fun _ hsz => h.left.align.bind fun _ hal => (hi h.right).bind fun _ hr => .pure ?_
    subst hal hsz hr
    rfl

theorem aggregateAlign_computes (h : ∀ f ∈ fields, Lays tags bits t f.type (slot f.type)) :
    Computes tags bits (t.aggregateAlign fields) (· = maxAlign (fields.map (slot ·.type))) := by
  induction fields
  case nil => exact .pure rfl
  case cons f fields hi =>
    have h := List.forall_mem_cons.mp h
    cases f
    refine h.left.align.bind fun _ hal => (hi h.right).bind fun _ hr => .pure ?_
    subst hal hr
    rfl

theorem aggregateSize_computes (h : ∀ f ∈ fields, Lays tags bits t f.type (slot f.type))
    (hw : ∀ f ∈ fields, (slot f.type).WellFormed) : Computes tags bits (t.aggregateSize isUnion fields)
    (· = (RecordLayout.record isUnion (fields.map (slot ·.type))).size) := by
  have hp : 0 < maxAlign (fields.map (slot ·.type)) := maxAlign_pos fun s hs => by
    obtain ⟨f, hf, rfl⟩ := List.mem_map.mp hs
    exact hw f hf
  cases isUnion
  case false =>
    refine (foldAggregateFields_computes h hw le_rfl).bind fun _ hr => .pure ?_
    rw [hr, max_eq_right one_le_maxAlign, alignUp_eq hp]
    rfl
  case true =>
    refine (unionFields_computes h).bind fun _ hr => .pure ?_
    rw [hr, alignUp_eq hp]
    rfl

theorem structSize_computes (h : ∀ f ∈ fields, Lays tags bits t f.type (slot f.type))
    (hw : ∀ f ∈ fields, (slot f.type).WellFormed) (hd : tags.fields name = some (isUnion, fields))
    (hl : HasLayout tags bits (.struct name) (RecordLayout.record isUnion (fields.map (slot ·.type)))) :
    Computes tags bits (t.structSize name) (· = (RecordLayout.record isUnion (fields.map (slot ·.type))).size) := by
  refine lookupStructSizeCache_computes.bind fun found hf => ?_
  cases found
  case some size => exact .pure <| hf size rfl _ hl
  case none =>
    intro known scope st a st' hs hr
    obtain ⟨found, _, hr₁, hr₂⟩ := run_value_bind_iff.mp hr
    obtain ⟨rfl, rfl⟩ := run_lookupStruct_iff.mp hr₁
    cases hn : symbolMapLookup name st.structs
    case none =>
      rw [hn] at hr₂
      exact absurd hr₂ not_run_throw
    case some definition =>
      rw [hn] at hr₂
      obtain rfl := Option.some.inj <| (hs.structs.right hn).symm.trans hd
      obtain ⟨size, _, hr₃, hr₄⟩ := run_value_bind_iff.mp hr₂
      obtain ⟨he, hs₁⟩ := aggregateSize_computes h hw (insert name known) scope (hs.learn hn) hr₃
      obtain ⟨_, _, hc, hp⟩ := run_value_bind_iff.mp hr₄
      obtain rfl := run_modify_iff.mp hc
      obtain ⟨rfl, rfl⟩ := run_pure_iff.mp hp
      have hs₂ := hs₁.cacheSize (.inl rfl) fun s hs => he.trans <| congrArg Slot.size <| hl.unique hs
      exact ⟨he, hs₂.weaken⟩

end Sizes

section Types

variable {known : Set String} {scope : Scope} {a : Int}

theorem typeAlignStep_eq (h : ∀ inner count, ty ≠ .array inner count) : t.typeAlignStep ty = do
    match ← aggregateFields ty with
    | some (_, fields) => t.aggregateAlign fields
    | none             =>
      let size ← t.typeSize ty
      return if size ≥ 8 then 8 else if size ≥ 4 then 4 else if size ≥ 2 then 2 else 1 := by
  cases ty
  case array inner count => exact absurd rfl <| h inner count
  all_goals rfl

section Scalars

theorem aggregateFields_scalar (h : scalarSize word ty = some size) :
    Computes tags bits (aggregateFields ty) (· = none) := by
  cases ty
  case named name =>
    obtain ⟨n, hn, -⟩ := Option.map_eq_some_iff.mp h
    have hf : tags.fields name = none := tags.named <| by rw [hn]; rfl
    refine lookupStruct_computes.mono fun found h => Option.eq_none_iff_forall_ne_some.mpr fun d hd => ?_
    exact nomatch hf.symm.trans <| h d hd
  all_goals first | exact .pure rfl | cases h

theorem typeSizeStep_scalar (h : scalarSize (wordSize bits) ty = some size) :
    Computes tags bits (t.typeSizeStep ty) (· = size) := by
  cases ty
  case named name =>
    obtain ⟨n, hn, rfl⟩ := Option.map_eq_some_iff.mp h
    have he : t.typeSizeStep (.named name) = Typing.targetNamedTypeSize name n := by
      rw [Typing.typeSizeStep, Typing.namedTypeSize, hn]
    rw [he, Typing.targetNamedTypeSize]
    split
    case isTrue  => exact targetWordSize_computes
    case isFalse => exact .pure rfl
  all_goals first | (cases h; exact .pure rfl) | (cases h; exact targetWordSize_computes) | cases h

theorem scalar_lays (h : scalarSize (wordSize bits) ty = some size) (fuel : Nat) :
    Lays tags bits (typing fuel) ty (scalarSlot size) := by
  have hs : ∀ fuel, Computes tags bits ((typing fuel).typeSize ty) (· = size) := by
    intro fuel
    cases fuel
    case zero => exact .outOfFuel
    case succ => exact typeSizeStep_scalar h
  refine ⟨hs fuel, ?_⟩
  cases fuel
  case zero => exact .outOfFuel
  case succ fuel =>
    have he := typeAlignStep_eq (t := typing fuel) <| show ∀ _ _, ty ≠ .array _ _ by rintro _ _ rfl; cases h
    rw [show (typing (fuel + 1)).typeAlign ty = _ from he]
    refine (aggregateFields_scalar h).bind fun _ hn => ?_
    subst hn
    exact (hs fuel).bind fun _ he => .pure <| by rw [he]; rfl

end Scalars

section Arrays

theorem checkedArraySize_computes : Computes tags bits (checkedArraySize size n) (· = size * n) := by
  unfold checkedArraySize
  split
  case isTrue  => exact .throw
  case isFalse => exact .pure rfl

theorem arrayBoundSize_computes (h : FixedBound bits bound n) :
    Computes tags bits ((typing fuel).arrayBoundSize (some bound)) (· = n) := by
  intro known scope st a st' hs hr
  obtain ⟨value, st₁, hv, hb⟩ := run_value_bind_iff.mp hr
  obtain ⟨rfl, hc⟩ := h.sound hs.target hv
  rw [hc] at hb
  have hb : Run ((if n < 0 then throw "negative array extent" else pure n : ValueM Int) scope) st₁ a st' := hb
  split at hb
  case isTrue => exact absurd hb not_run_throw
  case isFalse =>
    obtain ⟨rfl, rfl⟩ := run_pure_iff.mp hb
    exact ⟨rfl, hs⟩

theorem array_lays (h : ∀ fuel, Lays tags bits (typing fuel) ty s) (hb : FixedBound bits bound n) (fuel : Nat) :
    Lays tags bits (typing fuel) (.array ty (some bound)) ⟨s.size * n, s.align⟩ := by
  cases fuel
  case zero => exact ⟨.outOfFuel, .outOfFuel⟩
  case succ fuel =>
    refine ⟨(h fuel).size.bind fun _ hs => (arrayBoundSize_computes hb).bind fun _ hn => ?_, (h fuel).align⟩
    exact hs ▸ hn ▸ checkedArraySize_computes

theorem unbounded_lays (h : ∀ fuel, Lays tags bits (typing fuel) ty s) (fuel : Nat) :
    Lays tags bits (typing fuel) (.array ty none) s := by
  cases fuel
  case zero => exact ⟨.outOfFuel, .outOfFuel⟩
  case succ fuel =>
    refine ⟨(h fuel).size.bind fun _ hs => ?_, (h fuel).align⟩
    exact checkedArraySize_computes.mono fun _ he => he.trans <| (mul_one _).trans hs

end Arrays

section Records

theorem aggregateFields_computes (hd : tags.Defines ty isUnion fields) :
    Computes tags bits (aggregateFields ty) fun found => ∀ d ∈ found, d = (isUnion, fields) := by
  cases ty
  case structDef =>
    obtain ⟨rfl, rfl⟩ := hd
    exact .pure fun _ h => (Option.some.inj h).symm
  case unionDef =>
    obtain ⟨rfl, rfl⟩ := hd
    exact .pure fun _ h => (Option.some.inj h).symm
  case structNamed =>
    obtain ⟨rfl, rfl, hn⟩ := hd
    exact (bindStruct_computes hn).bind fun _ _ => .pure fun _ h => (Option.some.inj h).symm
  case unionNamed =>
    obtain ⟨rfl, rfl, hn⟩ := hd
    exact (bindStruct_computes hn).bind fun _ _ => .pure fun _ h => (Option.some.inj h).symm
  case struct => exact lookupStruct_computes.mono fun _ h d hf => Option.some.inj <| (h d hf).symm.trans hd
  case union  => exact lookupStruct_computes.mono fun _ h d hf => Option.some.inj <| (h d hf).symm.trans hd
  case named  => exact lookupStruct_computes.mono fun _ h d hf => Option.some.inj <| (h d hf).symm.trans hd
  all_goals exact hd.elim

theorem Tags.Defines.namedIntegerSize_eq (hd : tags.Defines (.named name) isUnion fields) :
    namedIntegerSize name = none := by
  have h : scalarSize 0 (.named name) = none := hd.scalarSize_eq
  exact Option.map_eq_none_iff.mp h

theorem run_lookupStructSizeCache_iff : Run (lookupStructSizeCache name scope) st found st' ↔
    symbolMapLookup name st.structSizes = found ∧ st = st' :=
  Fueled.done_inj.trans <| by simp

theorem not_run_structSize (hs : st.Layouts tags bits known) (hn : symbolMapLookup name st.structs = none) :
    ¬Run (t.structSize name scope) st a st' := by
  intro hr
  obtain ⟨found, _, hr₁, hr₂⟩ := run_value_bind_iff.mp hr
  obtain ⟨rfl, rfl⟩ := run_lookupStructSizeCache_iff.mp hr₁
  cases hc : symbolMapLookup name st.structSizes
  case some size =>
    have := (hs.sizes.right hc).left
    rw [hn] at this
    cases this
  case none =>
    rw [hc] at hr₂
    obtain ⟨found, _, hr₃, hr₄⟩ := run_value_bind_iff.mp hr₂
    obtain ⟨rfl, rfl⟩ := run_lookupStruct_iff.mp hr₃
    rw [hn] at hr₄
    exact not_run_throw hr₄

-- A type that refers to an unknown tag has no size.
theorem not_run_typeSize (hd : tags.Defines ty isUnion fields) (hs : st.Layouts tags bits known)
    (hf : Run (aggregateFields ty scope) st none st') : ¬Run ((typing fuel).typeSize ty scope) st' a st'' := by
  cases fuel
  case zero => exact not_run_outOfFuel
  case succ fuel =>
    cases ty
    case structDef   => exact nomatch (run_pure_iff.mp hf).left
    case unionDef    => exact nomatch (run_pure_iff.mp hf).left
    case structNamed =>
      obtain ⟨_, _, _, hp⟩ := run_value_bind_iff.mp hf
      exact nomatch (run_pure_iff.mp hp).left
    case unionNamed =>
      obtain ⟨_, _, _, hp⟩ := run_value_bind_iff.mp hf
      exact nomatch (run_pure_iff.mp hp).left
    case struct name =>
      obtain ⟨hn, rfl⟩ := run_lookupStruct_iff.mp hf
      exact not_run_structSize hs hn
    case union name =>
      obtain ⟨hn, rfl⟩ := run_lookupStruct_iff.mp hf
      exact not_run_structSize hs hn
    case named name =>
      obtain ⟨hn, rfl⟩ := run_lookupStruct_iff.mp hf
      intro hr
      have he : (typing (fuel + 1)).typeSize (.named name) = (typing fuel).namedTypeSize name := rfl
      rw [he, Typing.namedTypeSize, hd.namedIntegerSize_eq] at hr
      obtain ⟨found, _, hr₁, hr₂⟩ := run_value_bind_iff.mp hr
      obtain ⟨rfl, rfl⟩ := run_lookupStruct_iff.mp hr₁
      rw [hn] at hr₂
      exact not_run_throw hr₂
    all_goals exact hd.elim

theorem record_lays (hd : tags.Defines ty isUnion fields)
    (hf : ∀ f ∈ fields, HasLayout tags bits f.type (slot f.type))
    (h : ∀ f ∈ fields, ∀ fuel, Lays tags bits (typing fuel) f.type (slot f.type)) (fuel : Nat) :
    Lays tags bits (typing fuel) ty (RecordLayout.record isUnion (fields.map (slot ·.type))) := by
  cases fuel
  case zero => exact ⟨.outOfFuel, .outOfFuel⟩
  case succ fuel =>
    have hw : ∀ f ∈ fields, (slot f.type).WellFormed := fun f hm => (hf f hm).wellFormed
    have h : ∀ f ∈ fields, Lays tags bits (typing fuel) f.type (slot f.type) := fun f hm => h f hm fuel
    constructor
    case size =>
      cases ty
      case structDef =>
        obtain ⟨rfl, rfl⟩ := hd
        exact (aggregateSize_computes h hw : Computes tags bits ((typing fuel).aggregateSize false _) _)
      case unionDef =>
        obtain ⟨rfl, rfl⟩ := hd
        exact (aggregateSize_computes h hw : Computes tags bits ((typing fuel).aggregateSize true _) _)
      case structNamed =>
        obtain ⟨rfl, rfl, hn⟩ := hd
        exact (bindStruct_computes hn).bind fun _ _ => aggregateSize_computes h hw
      case unionNamed =>
        obtain ⟨rfl, rfl, hn⟩ := hd
        exact (bindStruct_computes hn).bind fun _ _ => aggregateSize_computes h hw
      case struct name => exact structSize_computes h hw hd <| .record slot hd hf
      case union name  => exact structSize_computes h hw hd <| .record slot (show tags.Defines (.struct name) _ _ from hd) hf
      case named name =>
        have he : (typing (fuel + 1)).typeSize (.named name) = (typing fuel).namedTypeSize name := rfl
        rw [he, Typing.namedTypeSize, hd.namedIntegerSize_eq]
        refine lookupStruct_computes.bind fun found _ => ?_
        cases found
        case none => exact .throw
        case some => exact structSize_computes h hw hd <| .record slot (show tags.Defines (.struct name) _ _ from hd) hf
      all_goals exact hd.elim
    case align =>
      have he := typeAlignStep_eq (t := typing fuel) <| show ∀ _ _, ty ≠ .array _ _ by rintro _ _ rfl; exact hd.elim
      rw [show (typing (fuel + 1)).typeAlign ty = _ from he]
      intro known scope st a st' hs hr
      obtain ⟨found, st₁, hr₁, hr₂⟩ := run_value_bind_iff.mp hr
      obtain ⟨hn, hs₁⟩ := aggregateFields_computes hd known scope hs hr₁
      cases found
      case none =>
        obtain ⟨_, _, hr₃, _⟩ := run_value_bind_iff.mp hr₂
        exact absurd hr₃ <| not_run_typeSize hd hs hr₁
      case some d =>
        obtain rfl := hn d rfl
        exact aggregateAlign_computes h known scope hs₁ hr₂

end Records

-- Whatever has been looked up before, the size and the alignment of a type are those of its layout.
theorem HasLayout.lays (h : HasLayout tags bits ty s) (fuel : Nat) : Lays tags bits (typing fuel) ty s := by
  induction h generalizing fuel
  case scalar h               => exact scalar_lays h fuel
  case array hb _ hi          => exact array_lays hi hb fuel
  case unbounded hi           => exact unbounded_lays hi fuel
  case record slot hd hf hi => exact record_lays hd hf hi fuel

theorem fixedBound_literal {text : List Char} {value : Constant}
    (h : constantLiteralChecked (wordSize bits).toNat false text = .ok value)
    (hn : constantToIntChecked value = some n) : FixedBound bits (.int text) n := by
  have hw {scope : Scope} {st : ValueState} (hb : st.targetBits = bits) :
      Run (targetWordSize scope) st (wordSize bits) st := hb ▸ rfl
  constructor
  case sound =>
    intro fuel scope st value' st' hb hr
    cases fuel
    case zero => exact absurd hr not_run_outOfFuel
    case succ fuel =>
      obtain ⟨word, _, hw', hr⟩ := run_value_bind_iff.mp hr
      obtain ⟨rfl, rfl⟩ := (hw hb).unique hw'
      rw [h] at hr
      obtain ⟨rfl, rfl⟩ := run_pure_iff.mp hr
      exact ⟨rfl, hn⟩
  case reached =>
    refine ⟨1, scopeMapEmpty, { targetBits := bits }, value, { targetBits := bits }, rfl, ?_⟩
    refine run_value_bind_iff.mpr ⟨_, _, hw rfl, ?_⟩
    rw [h]
    exact run_pure_iff.mpr ⟨rfl, rfl⟩

-- Whatever has been looked up before in two states, a size that is computed in the one is a multiple of the
-- alignment that is computed in the other.
theorem typeSize_typeAlign_layout {known₁ known₂ : Set String} {scope₁ scope₂ : Scope} {fuel₁ fuel₂ : Nat}
    {st₁ st₂ st₁' st₂' : ValueState} (h : HasLayout tags bits ty s) (hs₁ : st₁.Layouts tags bits known₁)
    (hs₂ : st₂.Layouts tags bits known₂) (hr₁ : Run ((typing fuel₁).typeSize ty scope₁) st₁ n st₁')
    (hr₂ : Run ((typing fuel₂).typeAlign ty scope₂) st₂ a st₂') :
    n = s.size ∧ a = s.align ∧ a ∣ n ∧ 0 ≤ n ∧ (∃ k : Nat, a = 2 ^ k) ∧
      st₁'.Layouts tags bits known₁ ∧ st₂'.Layouts tags bits known₂ := by
  obtain ⟨rfl, hs₁'⟩ := (h.lays fuel₁).size known₁ scope₁ hs₁ hr₁
  obtain ⟨rfl, hs₂'⟩ := (h.lays fuel₂).align known₂ scope₂ hs₂ hr₂
  have hw := h.wellFormed
  exact ⟨rfl, rfl, hw.dvd, hw.size, hw.align, hs₁', hs₂'⟩

-- `struct P { char c; int a[3]; }`
def pairFields : List Field :=
  [.mk .char "c", .mk (.array .int (some (.int ['3']))) "a"]

def pairTags : Tags where
  fields name := if name = "P" then some (false, pairFields) else none
  named h     := by
    split
    case isTrue hn =>
      subst hn
      exact absurd h <| by decide
    case isFalse => rfl

def pairSlot : CType → Slot
  | .char => scalarSlot 1
  | _     => ⟨4 * 3, 4⟩

def pairState : ValueState :=
  { structs       := symbolMapInsert "P" (false, pairFields) symbolMapEmpty
    structSizes   := symbolMapDelete "P" symbolMapEmpty
    structMembers := symbolMapDelete "P" symbolMapEmpty }

theorem pairState_layouts : pairState.Layouts pairTags 64 ∅ :=
  ValueState.Layouts.initial.bind rfl

theorem pair_layout : HasLayout pairTags 64 (.struct "P") ⟨16, 4⟩ := by
  have hb : FixedBound 64 (.int ['3']) 3 := fixedBound_literal rfl rfl
  have hf : ∀ f ∈ pairFields, HasLayout pairTags 64 f.type (pairSlot f.type) := by
    intro f hf
    rcases List.mem_cons.mp hf with rfl | hf
    · exact .scalar rfl
    · obtain rfl := List.mem_singleton.mp hf
      exact .array (.scalar rfl) hb (by decide)
  have hd : pairTags.Defines (.struct "P") false pairFields := rfl
  exact .record pairSlot hd hf

theorem typeSize_typeAlign_layout_pair : ∃ n a st₁ st₂,
    Run ((typing 5).typeSize (.struct "P") scopeMapEmpty) pairState n st₁ ∧
      Run ((typing 5).typeAlign (.struct "P") scopeMapEmpty) pairState a st₂ ∧ n = 16 ∧ a = 4 ∧ a ∣ n := by
  obtain ⟨n, st₁, hr₁, -⟩ := exists_run_of_yields (m := (typing 5).typeSize (.struct "P") scopeMapEmpty)
    (s := pairState) (p := fun _ => true) (by decide +kernel)
  obtain ⟨a, st₂, hr₂, -⟩ := exists_run_of_yields (m := (typing 5).typeAlign (.struct "P") scopeMapEmpty)
    (s := pairState) (p := fun _ => true) (by decide +kernel)
  obtain ⟨hn, ha, hd, -⟩ := typeSize_typeAlign_layout pair_layout pairState_layouts pairState_layouts hr₁ hr₂
  exact ⟨n, a, st₁, st₂, hr₁, hr₂, hn, ha, hd⟩

end Types

end Hcc
