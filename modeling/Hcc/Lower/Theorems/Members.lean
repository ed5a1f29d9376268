import Hcc.Lower.Theorems.Layout
import Mathlib.Tactic.Tauto

open Stateful RecordLayout

-- The offsets of members that are looked up are those of the layout.
namespace Hcc

variable {tags : Tags} {bits fuel i j : Nat} {st st₁ st₂ st' : ValueState} {ty anon : CType} {s : Slot}
variable {fields before after rest : List Field} {isUnion : Bool} {name field : String} {n base : Int}
variable {slot : CType → Slot} {known : Set String} {scope : Scope} {info : CType × Int}

section Walks

theorem unionOffset_eq (h : (slot ty).WellFormed) :
    unionOffset isUnion (alignUp (finish 0 (before.map (slot ·.type))) (slot ty).align) =
      offset isUnion (before.map (slot ·.type)) (slot ty) := by
  rw [alignUp_eq h.pos]
  rfl

theorem fieldOffset_eq {t : Typing} {x : Int} :
    t.fieldOffset isUnion field x fields = t.nestedFieldOffset 0 isUnion field x fields := by
  induction fields generalizing x
  case nil => rfl
  case cons f _ hi =>
    cases f
    simp only [Typing.fieldOffset, Typing.nestedFieldOffset, Typing.anonymousMemberInfoForName, hi, zero_add]
    rfl

theorem aggregateFields_layout (h : HasLayout tags bits ty s) :
    Computes tags bits (aggregateFields ty) fun found => ∀ d ∈ found, tags.Defines ty d.1 d.2 ∧
      ∃ slot : CType → Slot, ∀ f ∈ d.2, HasLayout tags bits f.type (slot f.type) := by
  cases h with
  | scalar h           => exact (aggregateFields_scalar h).mono fun _ hn _ hd => nomatch hn.symm.trans hd
  | array              => exact .pure nofun
  | unbounded          => exact .pure nofun
  | record slot hd h   =>
    refine (aggregateFields_computes hd).mono fun found hf d hm => ?_
    obtain rfl := hf d hm
    exact ⟨hd, slot, h⟩

-- The result of a search for a member, at an offset that is relative to `base`.
def Located (tags : Tags) (bits : Nat) (isUnion : Bool) (fields : List Field) (field : String) (base : Int)
    (info : CType × Int) : Prop :=
  ∃ i n, Member tags bits isUnion fields i field info.1 n ∧ info.2 = base + n

theorem nestedFieldOffset_computes
    (ha : ∀ {ty s base}, HasLayout tags bits ty s → Computes tags bits ((typing fuel).anonymousMemberInfo base ty field)
      fun found => ∀ info ∈ found, ∃ inner fields, tags.Defines ty inner fields ∧
        Located tags bits inner fields field base info)
    (hl : ∀ f ∈ before ++ rest, HasLayout tags bits f.type (slot f.type)) (hn : ∀ f ∈ before, f.name ≠ field) :
    Computes tags bits
      ((typing fuel).nestedFieldOffset base isUnion field (finish 0 (before.map (slot ·.type))) rest)
      fun found => ∀ info ∈ found, Located tags bits isUnion (before ++ rest) field base info := by
  induction rest generalizing before
  case nil => exact .pure nofun
  case cons f rest hi =>
    obtain ⟨ty, name⟩ := f
    have ht : HasLayout tags bits ty (slot ty) := hl (.mk ty name) <| by simp
    have hb : ∀ f ∈ before ++ [.mk ty name], HasLayout tags bits f.type (slot f.type) :=
      fun f hf => hl f <| List.append_cons before .. ▸ List.mem_append_left rest hf
    refine (ht.lays fuel).align.bind fun _ he => ?_
    subst he
    by_cases hf : name = field
    case pos =>
      rw [if_pos hf]
      subst hf
      refine .pure fun info hm => ?_
      cases hm
      exact ⟨_, _, .direct slot hn hb, congrArg (base + ·) <| unionOffset_eq ht.wellFormed⟩
    case neg =>
      have hn' : ∀ f ∈ before ++ [.mk ty name], f.name ≠ field := by
        intro f hf'
        rcases List.mem_append.mp hf' with hf' | hf'
        · exact hn f hf'
        · rwa [List.mem_singleton.mp hf']
      rw [if_neg hf]
      refine (ht.lays fuel).size.bind fun _ he => ?_
      subst he
      have hanon : Computes tags bits ((typing fuel).anonymousMemberInfoForName false
          (base + unionOffset isUnion (alignUp (finish 0 (before.map (slot ·.type))) (slot ty).align)) ty name field)
          fun found => ∀ info ∈ found, Located tags bits isUnion (before ++ .mk ty name :: rest) field base info := by
        unfold Typing.anonymousMemberInfoForName
        split
        case isFalse => exact .pure nofun
        case isTrue hz =>
          subst hz
          refine (ha ht).mono fun found hf info hm => ?_
          obtain ⟨inner, fields, hd, i, n, hmem, he⟩ := hf info hm
          refine ⟨_, _, .anonymous slot hn' hb hd hmem, he.trans ?_⟩
          rw [←add_assoc, ←unionOffset_eq ht.wellFormed]
          rfl
      refine hanon.bind fun found hf => ?_
      cases found
      case some info => exact .pure hf
      case none =>
        have hi := @hi (before ++ [.mk ty name]) (by simpa using hl) hn'
        rw [List.map_append, finish_append, List.append_assoc] at hi
        rw [alignUp_eq ht.wellFormed.pos]
        exact hi

theorem anonymousMemberInfo_computes (h : HasLayout tags bits ty s) :
    Computes tags bits ((typing fuel).anonymousMemberInfo base ty field) fun found => ∀ info ∈ found,
      ∃ inner fields, tags.Defines ty inner fields ∧ Located tags bits inner fields field base info := by
  induction fuel generalizing ty s base
  case zero => exact .outOfFuel
  case succ fuel hi =>
    refine (aggregateFields_layout h).bind fun found hf => ?_
    cases found
    case none => exact .pure nofun
    case some d =>
      obtain ⟨hd, slot, hl⟩ := hf d rfl
      have hl : ∀ f ∈ [] ++ d.2, HasLayout tags bits f.type (slot f.type) := hl
      exact (nestedFieldOffset_computes hi hl nofun).mono fun _ hf info hm => ⟨_, _, hd, hf info hm⟩

end Walks

section Caches

theorem lookupStructMemberCache_computes : Computes tags bits (lookupStructMemberCache name field) fun found =>
    ∀ info ∈ found, ∃ isUnion fields i, tags.fields name = some (isUnion, fields) ∧
      Member tags bits isUnion fields i field info.1 info.2 := by
  refine fun _ _ => Keeps.get.bind fun st hs => ?_
  cases hm : symbolMapLookup name st.structMembers
  case none         => exact .pure nofun
  case some members => exact .pure fun _ hf => (hs.members.right hm).right hf

theorem cacheStructMember_computes (hn : tags.fields name = some (isUnion, fields))
    (hm : Member tags bits isUnion fields i field info.1 info.2) :
    Computes tags bits (cacheStructMember name field info) fun _ => True :=
  fun _ _ => Keeps.modify fun _ hs => hs.cacheMember hn hm

theorem Tags.Defines.of_cacheName (h : tags.Defines ty isUnion fields) (hc : aggregateCacheName ty = some name) :
    tags.fields name = some (isUnion, fields) := by
  cases ty
  case struct | union | named =>
    cases hc
    exact h
  case structNamed | unionNamed =>
    cases hc
    exact h.left ▸ h.right.right
  all_goals cases hc

-- A tag with a member that has been found is the one of the type.
theorem HasLayout.defines_of_cacheName (h : HasLayout tags bits ty s) (hc : aggregateCacheName ty = some name)
    (hn : tags.fields name = some (isUnion, fields)) : tags.Defines ty isUnion fields := by
  cases h with
  | record _ hd _ =>
    obtain ⟨rfl, rfl⟩ := Prod.mk.inj <| Option.some.inj <| (hd.of_cacheName hc).symm.trans hn
    exact hd
  | array     => cases hc
  | unbounded => cases hc
  | scalar h  =>
    cases ty
    case named =>
      cases hc
      exact hn
    all_goals cases hc <;> cases h

theorem memberInfoForAggregateUncached_computes (h : HasLayout tags bits ty s) :
    Computes tags bits ((typing fuel).memberInfoForAggregateUncached ty field) fun found => ∀ info ∈ found,
      ∃ isUnion fields i, tags.Defines ty isUnion fields ∧
        Member tags bits isUnion fields i field info.1 info.2 := by
  refine (aggregateFields_layout h).bind fun found hf => ?_
  cases found
  case none => exact .pure nofun
  case some d =>
    obtain ⟨hd, slot, hl⟩ := hf d rfl
    have hl : ∀ f ∈ [] ++ d.2, HasLayout tags bits f.type (slot f.type) := hl
    show Computes tags bits ((typing fuel).fieldOffset d.1 field 0 d.2) _
    rw [fieldOffset_eq]
    refine (nestedFieldOffset_computes anonymousMemberInfo_computes hl nofun).mono fun _ hf info hm => ?_
    obtain ⟨i, n, hmem, he⟩ := hf info hm
    rw [zero_add] at he
    exact ⟨_, _, i, hd, he ▸ hmem⟩

theorem memberInfoForAggregate_computes (h : HasLayout tags bits ty s) :
    Computes tags bits ((typing fuel).memberInfoForAggregate ty field) fun found => ∀ info ∈ found,
      ∃ isUnion fields i, tags.Defines ty isUnion fields ∧
        Member tags bits isUnion fields i field info.1 info.2 := by
  unfold Typing.memberInfoForAggregate
  cases hc : aggregateCacheName ty
  case none => exact memberInfoForAggregateUncached_computes h
  case some name =>
    refine lookupStructMemberCache_computes.bind fun found hf => ?_
    cases found
    case some info =>
      refine .pure fun info' hm => ?_
      cases hm
      obtain ⟨isUnion, fields, i, hn, hmem⟩ := hf info rfl
      exact ⟨isUnion, fields, i, h.defines_of_cacheName hc hn, hmem⟩
    case none =>
      refine (memberInfoForAggregateUncached_computes h).bind fun found hf => ?_
      cases found
      case none => exact .pure nofun
      case some info =>
        obtain ⟨isUnion, fields, i, hd, hmem⟩ := hf info rfl
        refine (cacheStructMember_computes (hd.of_cacheName hc) hmem).bind fun _ _ => .pure fun info' hm => ?_
        cases hm
        exact ⟨isUnion, fields, i, hd, hmem⟩

theorem memberInfo_computes (h : HasLayout tags bits ty s) :
    Computes tags bits ((typing fuel).memberInfo (some (.ptr ty)) field) fun info =>
      ∃ isUnion fields i, tags.Defines ty isUnion fields ∧
        Member tags bits isUnion fields i field info.1 info.2 := by
  refine (memberInfoForAggregate_computes h).bind fun found hf => ?_
  cases found
  case none => exact .throw
  case some info => exact .pure <| hf info rfl

end Caches

section Positions

variable {u : Bool} {fs : List Field} {a b : CType} {m m' : Int} {sa sb : Slot} {f g : String}

theorem wellFormed_map (hl : ∀ f ∈ fields, HasLayout tags bits f.type (slot f.type)) :
    ∀ s ∈ fields.map (slot ·.type), s.WellFormed := by
  intro s hs
  obtain ⟨f, hf, rfl⟩ := List.mem_map.mp hs
  exact (hl f hf).wellFormed

theorem map_slot_eq {slot' : CType → Slot} (hl : ∀ f ∈ fields, HasLayout tags bits f.type (slot f.type))
    (hl' : ∀ f ∈ fields, HasLayout tags bits f.type (slot' f.type)) :
    fields.map (slot ·.type) = fields.map (slot' ·.type) :=
  List.map_congr_left fun f hf => (hl f hf).unique <| hl' f hf

theorem HasLayout.exists_slot (h : HasLayout tags bits ty s) (hd : tags.Defines ty isUnion fields) :
    ∃ slot : CType → Slot, s = RecordLayout.record isUnion (fields.map (slot ·.type)) ∧
      ∀ f ∈ fields, HasLayout tags bits f.type (slot f.type) := by
  cases h with
  | scalar h          => exact nomatch hd.scalarSize_eq.symm.trans h
  | array             => exact hd.elim
  | unbounded         => exact hd.elim
  | record slot hd' h =>
    obtain ⟨rfl, rfl⟩ := hd.unique hd'
    exact ⟨slot, rfl, h⟩

-- The member is a part of the one at its position, and aligned.
structure Member.Placed (tags : Tags) (bits : Nat) (isUnion : Bool) (fields : List Field) (slot : CType → Slot)
    (i : Nat) (ty : CType) (n : Int) (s : Slot) : Prop where
  layout : HasLayout tags bits ty s
  dvd    : s.align ∣ n
  coarse : s.align ∣ (RecordLayout.record isUnion (fields.map (slot ·.type))).align
  inside : ∃ before f after, fields = before ++ f :: after ∧ before.length = i ∧
           offset isUnion (before.map (slot ·.type)) (slot f.type) ≤ n ∧
           n + s.size ≤ offset isUnion (before.map (slot ·.type)) (slot f.type) + (slot f.type).size

theorem Member.Placed.bounds {slot} (h : Member.Placed tags bits isUnion fields slot i ty n s)
    (hl : ∀ f ∈ fields, HasLayout tags bits f.type (slot f.type)) :
    0 ≤ n ∧ n + s.size ≤ (RecordLayout.record isUnion (fields.map (slot ·.type))).size := by
  obtain ⟨before, f, after, rfl, -, hlow, hhigh⟩ := h.inside
  have hw := wellFormed_map hl
  rw [List.map_append, List.map_cons] at hw ⊢
  refine ⟨Int.le_trans ?_ hlow, hhigh.trans <| offset_add_size_le hw⟩
  exact offset_nonneg (fun s hs => hw s <| by simp [hs]) <| hw _ <| by simp

theorem Member.placed (hm : Member tags bits isUnion fields i name ty n)
    (hl : ∀ f ∈ fields, HasLayout tags bits f.type (slot f.type)) :
    ∃ s, Member.Placed tags bits isUnion fields slot i ty n s := by
  induction hm generalizing slot
  case direct isUnion before after ty name slot' hn hl' =>
    have ht : HasLayout tags bits ty (slot ty) := hl (.mk ty name) <| by simp
    have he : before.map (slot ·.type) = before.map (slot' ·.type) :=
      map_slot_eq (fun f hf => hl f <| by simp [hf]) fun f hf => hl' f <| by simp [hf]
    have ht' : slot ty = slot' ty := ht.unique <| hl' (.mk ty name) <| by simp
    rw [←he, ←ht']
    refine ⟨slot ty, ht, offset_dvd, align_dvd_record (wellFormed_map hl) ?_, ?_⟩
    · exact List.mem_map.mpr ⟨.mk ty name, by simp, rfl⟩
    · exact ⟨before, .mk ty name, after, rfl, rfl, le_rfl, le_rfl⟩
  case anonymous isUnion before after anon inner fields i name ty n slot' hn hl' hd hm hi =>
    have ht : HasLayout tags bits anon (slot anon) := hl (.mk anon "") <| by simp
    have he : before.map (slot ·.type) = before.map (slot' ·.type) :=
      map_slot_eq (fun f hf => hl f <| by simp [hf]) fun f hf => hl' f <| by simp [hf]
    have ht' : slot anon = slot' anon := ht.unique <| hl' (.mk anon "") <| by simp
    rw [←he, ←ht']
    obtain ⟨slot₁, hr, hl₁⟩ := ht.exists_slot hd
    obtain ⟨s, hp⟩ := hi hl₁
    obtain ⟨hn, hb⟩ := hp.bounds hl₁
    have hc := hp.coarse
    rw [←hr] at hb hc
    refine ⟨s, hp.layout, Int.dvd_add (hc.trans offset_dvd) hp.dvd, hc.trans ?_, ?_⟩
    · exact align_dvd_record (wellFormed_map hl) <| List.mem_map.mpr ⟨.mk anon "", by simp, rfl⟩
    · exact ⟨before, .mk anon "", after, rfl, rfl, le_add_of_nonneg_right hn, by
        rw [add_assoc]
        exact Int.add_le_add_left hb _⟩

theorem Member.Placed.disjoint {slot} (ha : Member.Placed tags bits false fields slot i a m sa)
    (hb : Member.Placed tags bits false fields slot j b m' sb)
    (hl : ∀ f ∈ fields, HasLayout tags bits f.type (slot f.type)) (h : i < j) : m + sa.size ≤ m' := by
  obtain ⟨before, f, after, he, rfl, -, hhigh⟩ := ha.inside
  obtain ⟨before', f', after', he', rfl, hlow, -⟩ := hb.inside
  obtain ⟨mid, rfl⟩ : ∃ mid, before' = before ++ f :: mid := by
    have hp : before ++ [f] <+: before' := by
      have ha : before ++ [f] <+: fields := ⟨after, by simp [he]⟩
      have hb : before' <+: fields := ⟨f' :: after', he'.symm⟩
      refine List.prefix_of_prefix_length_le ha hb ?_
      rw [List.length_append]
      exact h
    obtain ⟨mid, rfl⟩ := hp
    exact ⟨mid, by simp⟩
  refine hhigh.trans <| Int.le_trans ?_ hlow
  have hw := wellFormed_map hl
  rw [List.map_append, List.map_cons]
  refine offset_add_size_le_offset fun s hs => hw s ?_
  rw [he']
  simp only [List.map_append, List.map_cons, List.mem_append, List.mem_cons] at hs ⊢
  tauto

-- A member that is found, in the cache or not, is one of the type. It is aligned and does not exceed the type.
theorem memberInfo_layout (h : HasLayout tags bits ty s) (hs : st.Layouts tags bits known)
    (hr : Run ((typing fuel).memberInfo (some (.ptr ty)) name scope) st (a, n) st') :
    (∃ u fs i sa, tags.Defines ty u fs ∧ Member tags bits u fs i name a n ∧ HasLayout tags bits a sa ∧
      sa.align ∣ n ∧ 0 ≤ n ∧ n + sa.size ≤ s.size) ∧ st'.Layouts tags bits known := by
  obtain ⟨⟨u, fs, i, hd, hm⟩, hs'⟩ := memberInfo_computes h known scope hs hr
  obtain ⟨slot, rfl, hl⟩ := h.exists_slot hd
  obtain ⟨sa, hp⟩ := hm.placed hl
  exact ⟨⟨u, fs, i, sa, hd, hm, hp.layout, hp.dvd, hp.bounds hl⟩, hs'⟩

theorem exists_run_member (name : String) (h : yields ((typing 5).memberInfo (some (.ptr (.struct "P"))) name
    scopeMapEmpty) pairState fun _ => true) : ∃ a n st',
    Run ((typing 5).memberInfo (some (.ptr (.struct "P"))) name scopeMapEmpty) pairState (a, n) st' := by
  obtain ⟨⟨a, n⟩, st', hr, -⟩ := exists_run_of_yields h
  exact ⟨a, n, st', hr⟩

theorem memberInfo_layout_pair : ∃ a n st' sa,
    Run ((typing 5).memberInfo (some (.ptr (.struct "P"))) "a" scopeMapEmpty) pairState (a, n) st' ∧
      HasLayout pairTags 64 a sa ∧ sa.align ∣ n ∧ n + sa.size ≤ 16 := by
  obtain ⟨a, n, st', hr⟩ := exists_run_member "a" (by decide +kernel)
  obtain ⟨⟨_, _, _, sa, -, -, hl, hd, -, hn⟩, -⟩ := memberInfo_layout pair_layout pairState_layouts hr
  exact ⟨a, n, st', sa, hr, hl, hd, hn⟩

end Positions

end Hcc
