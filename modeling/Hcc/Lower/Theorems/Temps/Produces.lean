import Hcc.Lower.Theorems.Steady.Statement
import Hcc.Lower.Theorems.Temps.Declaration
import Hcc.SymbolTable.Theorems.Entries

open Stateful

namespace Hcc

-- Names of aggregates are not forgotten.
def ValueState.Grows (st st' : ValueState) : Prop :=
  Outgrows st'.structs st.structs

instance : StableFunction ValueState.Grows where
  refl _              := .refl
  trans h₁ h₂         := Outgrows.trans h₂ h₁
  types _ _ _ _ h     := h
  dataItem _ h        := h
  freshTemp _         := .refl
  currentFunction _ h := h

instance : TameSymbols ValueState.Grows where
  symbols _ _ _ _ _ := .refl

variable {N : Prop} {t : Temp} {st st₁ st' : ExprState} {i : Instr} {is js : List Instr} {ops : List Operand}

section Variables

def ScopeMap.All (p : α → Prop) (m : ScopeMap α) : Prop :=
  ∀ scope ∈ m.current :: m.parents, scope.All p

variable {α : Type} {p q : α → Prop} {m : ScopeMap α} {a : α}

theorem ScopeMap.All.mono (h : m.All p) (hq : ∀ {a}, p a → q a) : m.All q :=
  fun scope hs => SymbolMap.All.mono (h scope hs) hq

theorem ScopeMap.all_empty : (scopeMapEmpty : ScopeMap α).All p := by
  simp [ScopeMap.All, scopeMapEmpty, SymbolMap.all_empty]

theorem ScopeMap.All.insert (h : m.All p) (ha : p a) : (scopeMapInsert key a m).All p := by
  have ⟨hc, hp⟩ := List.forall_mem_cons.mp h
  exact List.forall_mem_cons.mpr ⟨SymbolMap.All.insert hc ha, hp⟩

theorem ScopeMap.All.enter (h : m.All p) : (scopeMapEnter m).All p :=
  List.forall_mem_cons.mpr ⟨SymbolMap.all_empty, h⟩

theorem ScopeMap.All.leave (h : m.All p) : (scopeMapLeave m).All p := by
  unfold scopeMapLeave
  have ⟨_, hp⟩ := List.forall_mem_cons.mp h
  split
  case h_1    => exact all_empty
  case h_2 he =>
    rw [he] at hp
    exact hp

theorem ScopeMap.All.lookup (h : m.All p) (hl : scopeMapLookup name m = some a) : p a := by
  have h' {scopes : List (SymbolMap α)} (h : ∀ scope ∈ scopes, scope.All p)
      (hl : scopeMapLookup.lookupScopes name scopes = some a) : p a := by
    induction scopes
    case nil => contradiction
    case cons hi =>
      have ⟨hs, hss⟩ := List.forall_mem_cons.mp h
      rw [scopeMapLookup.lookupScopes] at hl
      split at hl
      case h_1 he => exact SymbolMap.All.lookup hs <| he.trans hl
      case h_2    => exact hi hss hl
  exact h' h hl

end Variables

namespace ExprState

-- The aggregates are those that are known in the state.
def tempContext (st : ExprState) (t : Temp) : TempContext where
  scope      := st.vars
  temp       := t
  names name := symbolMapMember name st.structs = true

-- The temporary does not belong to a variable.
def Free (st : ExprState) (t : Temp) : Prop :=
  st.vars.All (·.1 ≠ t)

-- The temporary belongs to aggregates only.
def Plain (st : ExprState) (t : Temp) : Prop :=
  st.vars.All fun v => v.1 = t → (st.tempContext t).Aggregate v.2

-- The temporary is allocated between two states.
def New (st st' : ExprState) (t : Temp) : Prop :=
  st.nextTemp ≤ t.index ∧ t.index < st'.nextTemp

instance : Decidable (st.New st' t) :=
  inferInstanceAs <| Decidable (_ ∧ _)

theorem Free.not_local (h : st.Free t) : ¬(st.tempContext t).Local :=
  fun ⟨_, _, hl⟩ => ScopeMap.All.lookup h hl rfl

theorem Plain.not_scalar (h : st.Plain t) : ¬(st.tempContext t).Scalar :=
  fun ⟨_, _, hl, hn⟩ => hn <| ScopeMap.All.lookup h hl rfl

theorem aggregate_mono {ty : CType} (h : (st.tempContext t).Aggregate ty)
    (hn : ∀ name, symbolMapMember name st.structs = true → symbolMapMember name st'.structs = true) :
    (st'.tempContext t).Aggregate ty := by
  cases ty
  case named => exact hn _ h
  all_goals exact h

end ExprState

-- A stack object is allocated for the temporary.
def Allocates (t : Temp) (is : List Instr) : Prop :=
  ∃ size, .alloca t size ∈ allInstrs is

theorem Allocates.pos (h : Allocates t is) : 0 < creations t is := by
  have ⟨size, hm⟩ := h
  exact List.countP_pos_iff.mpr ⟨_, hm, by simp [Instr.created]⟩

theorem allocates_append : Allocates t (is ++ js) ↔ Allocates t is ∨ Allocates t js := by
  simp [Allocates, exists_or]

-- The instructions `is` define the temporary if it is allocated between the states.
structure Introduces (t : Temp) (st : ExprState) (is : List Instr) (st' : ExprState) : Prop where
  le      : st.nextTemp ≤ st'.nextTemp
  ordered : st'.structs.Ordered
  names   : ∀ name, symbolMapMember name st.structs = true → symbolMapMember name st'.structs = true
  single  : creations t is ≤ 1
  new     : 0 < creations t is → st.New st' t
  defines : st.New st' t → 0 < creations t is ∨ ¬Unassigned t is
  plain   : st.Plain t → ¬st.New st' t ∨ Allocates t is → Unassigned t is ∧ st'.Plain t

-- The operands `ops` refer to the results of the instructions.
structure Produces (t : Temp) (st : ExprState) (is : List Instr) (ops : List Operand) (st' : ExprState) :
    Prop extends Introduces t st is st' where
  unused  : ¬st.New st' t → st.Free t → Unused t is ∧ Spares t ops ∧ st'.Free t

namespace Introduces

theorem refl (h : st.structs.Ordered) : Introduces t st [] st where
  le        := le_rfl
  ordered   := h
  names _   := id
  single    := Nat.zero_le 1
  new h     := absurd h <| Nat.lt_irrefl 0
  defines h := absurd (h.left.trans_lt h.right) <| lt_irrefl _
  plain h _ := ⟨unassigned_nil, h⟩

theorem new_iff (h : Introduces t st is st₁) (h' : Introduces t st₁ js st') :
    st.New st' t ↔ st.New st₁ t ∨ st₁.New st' t := by
  have hl := h.le
  have hl' := h'.le
  simp only [ExprState.New]
  omega

theorem not_both (h : st.New st₁ t) : ¬st₁.New st' t :=
  fun h' => absurd h.right <| not_lt.mpr h'.left

theorem append (h : Introduces t st is st₁) (h' : Introduces t st₁ js st') :
    Introduces t st (is ++ js) st' := by
  have hn := h.new_iff h'
  have hs : creations t is = 0 ∨ creations t js = 0 := by
    by_contra hc
    have ⟨h₁, h₂⟩ := not_or.mp hc
    exact not_both (h.new <| Nat.pos_of_ne_zero h₁) (h'.new <| Nat.pos_of_ne_zero h₂)
  have h₁ := h.single
  have h₂ := h'.single
  constructor
  case le      => exact h.le.trans h'.le
  case ordered => exact h'.ordered
  case names   => exact fun name => h'.names name ∘ h.names name
  case single  => rw [creations_append]; omega
  case new     =>
    intro hc
    rw [creations_append] at hc
    rcases hs with hs | hs
    · exact hn.mpr <| .inr <| h'.new <| by omega
    · exact hn.mpr <| .inl <| h.new <| by omega
  case defines =>
    intro hw
    rw [creations_append, unassigned_append]
    rcases hn.mp hw with hw | hw
    · have hd := h.defines hw
      grind
    · have hd := h'.defines hw
      grind
  case plain   =>
    intro hp ha
    rw [allocates_append] at ha
    have ha₁ : ¬st.New st₁ t ∨ Allocates t is := by
      rcases ha with ha | ha | ha
      · exact .inl fun hw => ha <| hn.mpr <| .inl hw
      · exact .inr ha
      · exact .inl fun hw => not_both hw <| h'.new ha.pos
    have ha₂ : ¬st₁.New st' t ∨ Allocates t js := by
      rcases ha with ha | ha | ha
      · exact .inl fun hw => ha <| hn.mpr <| .inr hw
      · exact .inl <| not_both <| h.new ha.pos
      · exact .inr ha
    have ⟨hu, hp⟩ := h.plain hp ha₁
    have ⟨hu', hp⟩ := h'.plain hp ha₂
    exact ⟨hu.append hu', hp⟩

theorem perm (h : Introduces t st is st') (hp : is.Perm js) : Introduces t st js st' := by
  have hp := allInstrs_perm hp
  have hm (i) : i ∈ allInstrs js ↔ i ∈ allInstrs is := hp.mem_iff.symm
  have hc : creations t js = creations t is := (hp.countP_eq _).symm
  have ha : Unassigned t js ↔ Unassigned t is := by simp only [Unassigned, hm]
  have hl : Allocates t js ↔ Allocates t is := by simp only [Allocates, hm]
  exact ⟨h.le, h.ordered, h.names, hc ▸ h.single, hc ▸ h.new, by rw [hc, ha]; exact h.defines,
    by rw [hl, ha]; exact h.plain⟩

-- The temporaries of a computation on values are those that it creates.
theorem of_delivers {α : Type} [Emission α] {a : α} {values : ValueState}
    (h : Delivers (st.tempContext t) N [] st.toValueState a values) 
    (hn : ∀ name, symbolMapMember name st.structs = true → symbolMapMember name values.structs = true) :
    Introduces t st (Emission.instrs a) { st with toValueState := values } := by
  have hc : creations t (Emission.instrs a) =
      if st.New { st with toValueState := values } t then 1 else 0 :=
    h.creations.trans <| Nat.zero_add _
  constructor
  case le      => exact h.le
  case ordered => exact h.covers.ordered
  case names   => exact hn
  case single  => rw [hc]; split <;> omega
  case new     =>
    intro hp
    by_contra hw
    rw [hc, if_neg hw] at hp
    exact Nat.lt_irrefl 0 hp
  case defines => exact fun hw => .inl <| by rw [hc, if_pos hw]; exact Nat.one_pos
  case plain   =>
    intro hp _
    exact ⟨(h.known.right hp.not_scalar).left, ScopeMap.All.mono hp fun ha he =>
      ExprState.aggregate_mono (ha he) hn⟩

theorem run {α : Type} [Emission α] {m : ValueM α} {a : α} (ho : st.structs.Ordered)
    (hr : Run (onValues m) st a st') (hs : Respects ValueState.Grows m)
    (hm : ∀ {ctx : TempContext}, ctx.temp = t → Tracks ctx False [] m) :
    Introduces t st (Emission.instrs a) st' := by
  obtain ⟨values, hv, rfl⟩ := run_onValues_iff.mp hr
  exact of_delivers (hm rfl hv ⟨ho, fun _ => id⟩) (hs hv ho).right

end Introduces

namespace Produces

theorem refl (h : st.structs.Ordered) : Produces t st [] [] st :=
  ⟨.refl h, fun _ hf => ⟨unused_nil, spares_nil, hf⟩⟩

theorem append (h : Produces t st is ops st₁) (h' : Produces t st₁ js ops' st') :
    Produces t st (is ++ js) (ops ++ ops') st' := by
  refine ⟨h.toIntroduces.append h'.toIntroduces, fun hw hf => ?_⟩
  have ⟨hw₁, hw₂⟩ := not_or.mp <| (h.new_iff h'.toIntroduces).not.mp hw
  have ⟨hu, ho, hf⟩ := h.unused hw₁ hf
  have ⟨hu', ho', hf⟩ := h'.unused hw₂ hf
  exact ⟨hu.append hu', by simpa [Spares, or_imp, forall_and] using ⟨ho, ho'⟩, hf⟩

theorem perm (h : Produces t st is ops st') (hp : is.Perm js) : Produces t st js ops st' := by
  refine ⟨h.toIntroduces.perm hp, fun hw hf => ?_⟩
  have hm (i) : i ∈ allInstrs js ↔ i ∈ allInstrs is := (allInstrs_perm hp).mem_iff.symm
  have hu : Unused t js ↔ Unused t is := by simp only [Unused, hm]
  rw [hu]
  exact h.unused hw hf

theorem mono (h : Produces t st is ops st') (ho : ops' ⊆ ops) : Produces t st is ops' st' := by
  refine ⟨h.toIntroduces, fun hw hf => ?_⟩
  have ⟨hu, hs, hf⟩ := h.unused hw hf
  exact ⟨hu, fun op hm => hs op <| ho hm, hf⟩

-- An instruction that does not define the temporary.
theorem concat (h : Produces t st is ops st') (hc : i.created ≠ some t) (ha : i.assigned ≠ some t)
    (hn : i.nested = []) (ho : i.operands ⊆ ops) : Produces t st (is ++ [i]) [] st' := by
  have hi : creations t (is ++ [i]) = creations t is := by simp [hc, hn]
  have hl : Allocates t (is ++ [i]) → Allocates t is := by
    rintro ⟨size, hm⟩
    refine ⟨size, ?_⟩
    rcases List.mem_append.mp (allInstrs_append ▸ hm) with hm | hm
    · exact hm
    · rw [allInstrs_cons, hn] at hm
      obtain rfl := List.mem_singleton.mp hm
      exact absurd rfl hc
  have hu : Unassigned t (is ++ [i]) = Unassigned t is := by simp [ha, hn]
  constructor
  case unused =>
    intro hw hf
    have ⟨hu, hs, hf⟩ := h.unused hw hf
    have hs : Spares t i.operands := fun op hm => hs op <| ho hm
    exact ⟨by simp [hn, hu, hs], spares_nil, hf⟩
  exact ⟨h.le, h.ordered, h.names, hi ▸ h.single, hi ▸ h.new, by rw [hi, hu]; exact h.defines,
    fun hp ha => hu.symm ▸ h.plain hp (ha.imp_right hl)⟩

-- Variables of an inner scope are forgotten.
theorem scope (h : Produces t { st with vars := scopeMapEnter st.vars } is ops st') :
    Produces t st is ops { st' with vars := scopeMapLeave st'.vars } where
  le           := h.le
  ordered      := h.ordered
  names        := h.names
  single       := h.single
  new          := h.new
  defines      := h.defines
  unused hw hf :=
    have ⟨hu, ho, hf⟩ := h.unused hw <| ScopeMap.All.enter hf
    ⟨hu, ho, ScopeMap.All.leave hf⟩
  plain hp ha  :=
    have ⟨hu, hp⟩ := h.plain (ScopeMap.All.enter hp) ha
    ⟨hu, ScopeMap.All.leave hp⟩

-- A computation on values that can refer to the operands.
theorem run {α : Type} [Emission α] {m : ValueM α} {a : α} (h : Produces t st is ops st₁)
    (hr : Run (onValues m) st₁ a st') (hs : Respects ValueState.Grows m)
    (hm : ∀ {ctx : TempContext} {N : Prop}, ctx.temp = t → (N → ¬ctx.Local) → (N → Spares t ops) →
      Tracks ctx N [] m) :
    Produces t st (is ++ Emission.instrs a) (Emission.operands a) st' := by
  obtain ⟨values, hv, rfl⟩ := run_onValues_iff.mp hr
  let N := ¬st.New st₁ t ∧ st.Free t
  have hN : N → Spares t ops ∧ st₁.Free t := fun ⟨hw, hf⟩ => (h.unused hw hf).right
  have hd := hm (N := N) rfl (fun hn => (hN hn).right.not_local) (fun hn => (hN hn).left) hv
    ⟨h.ordered, fun _ => id⟩
  have hi := Introduces.of_delivers hd <| (hs hv h.ordered).right
  refine ⟨h.toIntroduces.append hi, fun hw hf => ?_⟩
  have ⟨hw₁, hw₂⟩ := not_or.mp <| (h.new_iff hi).not.mp hw
  have ⟨hu, _, hf'⟩ := h.unused hw₁ hf
  have hb : Absent t (Emission.instrs a) := by
    by_contra hb
    exact hw₂ <| hi.new <| Nat.pos_of_ne_zero <| absent_iff.not.mp hb
  have ⟨hu', ho⟩ := hd.known.left ⟨hw₁, hf⟩ hb
  exact ⟨hu.append hu', ho, hf'⟩

end Produces
end Hcc
