import Hcc.Lower.Theorems.Alloc
import Mathlib.Algebra.Order.Group.Multiset
import Mathlib.Tactic.Abel

open Stateful

namespace Hcc

def markedNames (ms : List Mark) : List String :=
  markedLabels ms ++ markedGotos ms

@[simp]
theorem markedLabels_append : markedLabels (ms₁ ++ ms₂) = markedLabels ms₁ ++ markedLabels ms₂ :=
  List.filterMap_append

@[simp]
theorem markedGotos_append : markedGotos (ms₁ ++ ms₂) = markedGotos ms₁ ++ markedGotos ms₂ :=
  List.filterMap_append

theorem mem_markedNames_append :
    n ∈ markedNames (ms₁ ++ ms₂) ↔ n ∈ markedNames ms₁ ∨ n ∈ markedNames ms₂ := by
  simp [markedNames]
  tauto

@[simp]
theorem blockTargets_append : blockTargets (B₁ ++ B₂) = blockTargets B₁ ++ blockTargets B₂ :=
  List.flatMap_append

def CompileState.labelIndex (st : CompileState) (name : String) : Nat :=
  (st.label? name).elim 0 (·.index)

def blockIndices (blocks : List BasicBlock) : Multiset Nat :=
  blocks.map (·.id.index)

def labelIndices (st : CompileState) (ms : List Mark) : Multiset Nat :=
  (markedLabels ms).map st.labelIndex

@[simp]
theorem blockIndices_append : blockIndices (B₁ ++ B₂) = blockIndices B₁ + blockIndices B₂ := by
  simp [blockIndices]

@[simp]
theorem labelIndices_append :
    labelIndices st (ms₁ ++ ms₂) = labelIndices st ms₁ + labelIndices st ms₂ := by
  simp [labelIndices]

-- Between two states, the blocks `F` are allocated, and blocks with the ids `E` and the ids of all
-- marked labels are emitted. They target allocated blocks, marked labels and gotos, and `exits`.
structure Emits (st : CompileState) (F E : Multiset Nat) (ms : List Mark) (exits : List BlockId)
    (blocks : List BasicBlock) (st' : CompileState) : Prop where
  alloc   : Alloc st st' F
  named   : ∀ n ∈ markedNames ms, ∃ b, st'.label? n = some b
  ids     : blockIndices blocks = E + labelIndices st' ms
  targets : ∀ t ∈ blockTargets blocks,
              t ∈ exits ∨ t.index ∈ F ∨ ∃ n ∈ markedNames ms, st'.label? n = some t
  gotos   : ∀ n ∈ markedGotos ms, ∃ t ∈ blockTargets blocks, st'.label? n = some t

namespace Emits

variable {st st' st₁ st₂ : CompileState} {F F' F₁ F₂ E E' E₁ E₂ : Multiset Nat}
variable {ms ms' ms₁ ms₂ : List Mark} {exits exits' exits₁ exits₂ : List BlockId}
variable {B B' B₁ B₂ : List BasicBlock}

theorem of_alloc (h : Alloc st st' F) : Emits st F 0 [] [] [] st' where
  alloc   := h
  named   := nofun
  ids     := rfl
  targets := nofun
  gotos   := nofun

theorem emit (block : BasicBlock) (h : Alloc st st' F) :
    Emits st F {block.id.index} [] (terminatorTargets block.term) [block] st' where
  alloc   := h
  named   := nofun
  ids     := rfl
  targets := by
    intro t ht
    exact .inl <| by simpa [blockTargets] using ht
  gotos   := nofun

theorem labelIndices_eq (h : Emits st F E ms exits B st₁) (ha : Alloc st₁ st₂ F') :
    labelIndices st₂ ms = labelIndices st₁ ms := by
  refine congrArg Multiset.ofList <| List.map_congr_left fun n hn => ?_
  have ⟨b, hb⟩ := h.named n <| List.mem_append_left _ hn
  simp [CompileState.labelIndex, hb, ha.keep hb]

theorem append (h₁ : Emits st F₁ E₁ ms₁ exits₁ B₁ st₁) (h₂ : Emits st₁ F₂ E₂ ms₂ exits₂ B₂ st₂) :
    Emits st (F₁ + F₂) (E₁ + E₂) (ms₁ ++ ms₂) (exits₁ ++ exits₂) (B₁ ++ B₂) st₂ where
  alloc       := h₁.alloc.trans h₂.alloc
  named n hn  := by
    rcases mem_markedNames_append.mp hn with hn | hn
    · have ⟨b, hb⟩ := h₁.named n hn
      exact ⟨b, h₂.alloc.keep hb⟩
    · exact h₂.named n hn
  ids         := by
    rw [blockIndices_append, labelIndices_append, h₁.ids, h₂.ids, h₁.labelIndices_eq h₂.alloc,
      add_add_add_comm]
  targets t ht := by
    rcases List.mem_append.mp <| blockTargets_append ▸ ht with ht | ht
    · rcases h₁.targets t ht with he | hf | ⟨n, hn, hl⟩
      · exact .inl <| List.mem_append_left _ he
      · exact .inr <| .inl <| Multiset.mem_add.mpr <| .inl hf
      · exact .inr <| .inr ⟨n, mem_markedNames_append.mpr <| .inl hn, h₂.alloc.keep hl⟩
    · rcases h₂.targets t ht with he | hf | ⟨n, hn, hl⟩
      · exact .inl <| List.mem_append_right _ he
      · exact .inr <| .inl <| Multiset.mem_add.mpr <| .inr hf
      · exact .inr <| .inr ⟨n, mem_markedNames_append.mpr <| .inr hn, hl⟩
  gotos n hn  := by
    rw [blockTargets_append]
    rcases List.mem_append.mp <| markedGotos_append ▸ hn with hn | hn
    · have ⟨t, ht, hl⟩ := h₁.gotos n hn
      exact ⟨t, List.mem_append_left _ ht, h₂.alloc.keep hl⟩
    · have ⟨t, ht, hl⟩ := h₂.gotos n hn
      exact ⟨t, List.mem_append_right _ ht, hl⟩

-- The order of the blocks and of the marks is irrelevant.
theorem perm (h : Emits st F E ms exits B st') (hb : B.Perm B') (hm : ms.Perm ms') :
    Emits st F E ms' exits B' st' where
  alloc        := h.alloc
  named n hn   := h.named n <| ((hm.filterMap _).append (hm.filterMap _)).mem_iff.mpr hn
  ids          := by
    have hi : blockIndices B' = blockIndices B := Multiset.coe_eq_coe.mpr <| hb.symm.map _
    have hl : labelIndices st' ms' = labelIndices st' ms :=
      Multiset.coe_eq_coe.mpr <| (hm.symm.filterMap _).map _
    rw [hi, hl, h.ids]
  targets t ht := by
    refine (h.targets t <| (hb.flatMap_right _).mem_iff.mpr ht).imp_right (.imp_right ?_)
    exact fun ⟨n, hn, hl⟩ => ⟨n, ((hm.filterMap _).append (hm.filterMap _)).mem_iff.mp hn, hl⟩
  gotos n hn   := by
    have ⟨t, ht, hl⟩ := h.gotos n <| (hm.filterMap _).mem_iff.mpr hn
    exact ⟨t, (hb.flatMap_right _).mem_iff.mp ht, hl⟩

theorem congr (h : Emits st F E ms exits B st') (hf : F = F') (he : E = E') :
    Emits st F' E' ms exits B st' :=
  hf ▸ he ▸ h

-- Exits to blocks that are allocated or marked are not exits.
theorem resolve (h : Emits st F E ms exits B st')
    (he : ∀ t ∈ exits, t ∈ exits' ∨ t.index ∈ F ∨ ∃ n ∈ markedNames ms, st'.label? n = some t) :
    Emits st F E ms exits' B st' where
  alloc        := h.alloc
  named        := h.named
  ids          := h.ids
  targets t ht := (h.targets t ht).elim (he t) .inr
  gotos        := h.gotos

-- The blocks that start with the block of a label are emitted due to the label.
theorem label (ha : Alloc st st₁ 0) (hn : st₁.label? n = some b)
    (h : Emits st₁ F ({b.index} + F) ms exits B st') : Emits st F F (.label n :: ms) exits B st' where
  alloc        := by simpa using ha.trans h.alloc
  named m hm   := by
    rcases List.mem_cons.mp hm with rfl | hm
    · exact ⟨b, h.alloc.keep hn⟩
    · exact h.named m hm
  ids          := by
    have hi : labelIndices st' (.label n :: ms) = {b.index} + labelIndices st' ms := by
      simp [labelIndices, markedLabels, CompileState.labelIndex, h.alloc.keep hn]
    rw [hi, h.ids]
    abel
  targets t ht := by
    refine (h.targets t ht).imp_right <| .imp_right ?_
    exact fun ⟨m, hm, hl⟩ => ⟨m, List.mem_cons_of_mem _ hm, hl⟩
  gotos        := h.gotos

theorem goto (bid : BlockId) (instrs : List Instr) (ha : Alloc st st' F) (hn : st'.label? n = some b) :
    Emits st F {bid.index} [.goto n] [] [⟨bid, instrs, .jump b⟩] st' where
  alloc        := ha
  named _ hm   := ⟨b, List.mem_singleton.mp hm ▸ hn⟩
  ids          := rfl
  targets _ ht := .inr <| .inr ⟨n, List.mem_singleton_self _, List.mem_singleton.mp ht ▸ hn⟩
  gotos _ hm   := ⟨b, List.mem_singleton_self _, List.mem_singleton.mp hm ▸ hn⟩

theorem scope (h : Emits st₁ F E ms exits B st₂) (hn : st₁.nextBlock = st.nextBlock)
    (hl : st₁.labels = st.labels) (hn' : st₂.nextBlock = st'.nextBlock) (hl' : st₂.labels = st'.labels)
    (hb : st'.breakTargets = st.breakTargets) (hc : st'.continueTargets = st.continueTargets) :
    Emits st F E ms exits B st' := by
  have hi : st'.label? = st₂.label? := by
    funext n
    simp [CompileState.label?, hl']
  have hj : st'.labelIndex = st₂.labelIndex := by
    funext n
    simp [CompileState.labelIndex, hi]
  have hx : labelIndices st' ms = labelIndices st₂ ms := by
    simp only [labelIndices, hj]
  exact ⟨h.alloc.congr hn hl hn' hl' hb hc, hi ▸ h.named, hx ▸ h.ids, hi ▸ h.targets, hi ▸ h.gotos⟩

end Emits
end Hcc
