import Hcc.Lower.Marks
import Hcc.SymbolTable.Theorems.Lookup
import Mathlib.Data.Multiset.AddSub
import Mathlib.Data.Multiset.UnionInter
import Mathlib.Data.Multiset.MapFold

open Stateful

namespace Hcc

variable {st st' st₁ st₂ : CompileState} {F F₁ F₂ : Multiset Nat} {n : String} {b : BlockId}

def CompileState.label? (st : CompileState) (name : String) : Option BlockId :=
  symbolMapLookup name st.labels

-- The blocks of distinct labels are distinct, and they have been allocated.
structure CompileState.Valid (st : CompileState) : Prop where
  ordered   : st.labels.Ordered
  bound     : ∀ {n b}, st.label? n = some b → b.index < st.nextBlock
  injective : ∀ {n m b}, st.label? n = some b → st.label? m = some b → n = m

-- The blocks `F` and blocks for labels are allocated between two states.
structure Alloc (st st' : CompileState) (F : Multiset Nat) : Prop where
  valid           : st'.Valid
  le              : st.nextBlock ≤ st'.nextBlock
  nodup           : F.Nodup
  range           : ∀ i ∈ F, st.nextBlock ≤ i ∧ i < st'.nextBlock
  keep            : ∀ {n b}, st.label? n = some b → st'.label? n = some b
  new             : ∀ {n b}, st'.label? n = some b →
                      st.label? n = some b ∨ st.nextBlock ≤ b.index ∧ b.index ∉ F
  breakTargets    : st'.breakTargets = st.breakTargets
  continueTargets : st'.continueTargets = st.continueTargets

theorem Alloc.refl (h : st.Valid) : Alloc st st 0 where
  valid           := h
  le              := le_rfl
  nodup           := Multiset.nodup_zero
  range           := by simp
  keep            := id
  new             := .inl
  breakTargets    := rfl
  continueTargets := rfl

theorem Alloc.trans (h₁ : Alloc st st₁ F₁) (h₂ : Alloc st₁ st₂ F₂) : Alloc st st₂ (F₁ + F₂) where
  valid           := h₂.valid
  le              := h₁.le.trans h₂.le
  nodup           := by
    refine Multiset.nodup_add.mpr ⟨h₁.nodup, h₂.nodup, Multiset.disjoint_left.mpr fun hi hj => ?_⟩
    exact absurd (h₂.range _ hj).left <| not_le.mpr (h₁.range _ hi).right
  range i hi      := by
    rcases Multiset.mem_add.mp hi with hi | hi
    · exact ⟨(h₁.range i hi).left, (h₁.range i hi).right.trans_le h₂.le⟩
    · exact ⟨h₁.le.trans (h₂.range i hi).left, (h₂.range i hi).right⟩
  keep            := h₂.keep ∘ h₁.keep
  new hl          := by
    rcases h₂.new hl with hl | ⟨hle, hn⟩
    · refine (h₁.new hl).imp_right fun ⟨hle, hn⟩ => ⟨hle, fun hi => ?_⟩
      rcases Multiset.mem_add.mp hi with hi | hi
      · exact hn hi
      · exact absurd (h₂.range _ hi).left <| not_le.mpr <| h₁.valid.bound hl
    · refine .inr ⟨h₁.le.trans hle, fun hi => ?_⟩
      rcases Multiset.mem_add.mp hi with hi | hi
      · exact absurd hle <| not_le.mpr (h₁.range _ hi).right
      · exact hn hi
  breakTargets    := h₂.breakTargets.trans h₁.breakTargets
  continueTargets := h₂.continueTargets.trans h₁.continueTargets

-- Allocated blocks can be abandoned.
theorem Alloc.abandon (h : Alloc st st' F) : Alloc st st' 0 :=
  { h with
    nodup := Multiset.nodup_zero
    range := by simp
    new   := fun hl => (h.new hl).imp_right fun ⟨hle, _⟩ => ⟨hle, by simp⟩ }

theorem Alloc.ite {c : Bool} (h : Alloc st st' F) : Alloc st st' (if c then 0 else F) := by
  cases c
  case true  => exact h.abandon
  case false => exact h

section Primitives

theorem Run.onExprs {m : ExprM α} (h : st.Valid) (hr : Run (onExprs m) st a st') : Alloc st st' 0 := by
  obtain ⟨ex, -, rfl⟩ := run_within_iff.mp hr
  exact ⟨⟨h.ordered, h.bound, h.injective⟩, le_rfl, by simp, by simp, id, .inl, rfl, rfl⟩

theorem Run.freshBlock (h : st.Valid) (hr : Run freshBlock st b st') :
    b.index = st.nextBlock ∧ Alloc st st' {b.index} := by
  simp only [Hcc.freshBlock, run_bind_iff, run_get_iff, run_pure_iff, run_set_iff] at hr
  obtain ⟨_, _, ⟨rfl, rfl⟩, _, _, rfl, rfl, rfl⟩ := hr
  refine ⟨rfl, ⟨h.ordered, fun hl => ?_, h.injective⟩, ?_, by simp, ?_, id, .inl, rfl, rfl⟩
  · exact (h.bound hl).trans <| Nat.lt_succ_self _
  · exact Nat.le_succ _
  · simp

theorem Alloc.insert (h : st.Valid) (hl : st.label? n = none) :
    let bid : BlockId := ⟨st.nextBlock⟩
    let st' := { st with nextBlock := st.nextBlock + 1, labels := symbolMapInsert n bid st.labels }
    st'.label? n = some bid ∧ Alloc st st' 0 := by
  intro bid st'
  have hi (m) : st'.label? m = if m = n then some bid else st.label? m := h.ordered.lookup_insert
  have hb {m b} (hm : st.label? m = some b) : b ≠ bid :=
    fun he => absurd (h.bound hm) <| by simp [he, bid]
  refine ⟨by simp [hi], ⟨h.ordered.insert, fun {m b} hm => ?_, fun {m k b} hm hk => ?_⟩, Nat.le_succ _,
    by simp, by simp, fun {m b} hm => ?_, fun {m b} hm => ?_, rfl, rfl⟩
  all_goals simp only [hi] at *
  · split at hm
    case isTrue  => exact Option.some.inj hm ▸ Nat.lt_succ_self _
    case isFalse => exact (h.bound hm).trans <| Nat.lt_succ_self _
  · split at hm <;> split at hk
    case isTrue.isTrue hm' hk'   => exact hm'.trans hk'.symm
    case isTrue.isFalse          => exact absurd (Option.some.inj hm).symm <| hb hk
    case isFalse.isTrue          => exact absurd (Option.some.inj hk).symm <| hb hm
    case isFalse.isFalse         => exact h.injective hm hk
  · rwa [if_neg]
    exact fun he => by simp [he ▸ hm] at hl
  · split at hm
    case isTrue  => exact .inr ⟨(Option.some.inj hm ▸ le_rfl : st.nextBlock ≤ _), by simp⟩
    case isFalse => exact .inl hm

theorem Run.labelBlock (h : st.Valid) (hr : Run (labelBlock n) st b st') :
    st'.label? n = some b ∧ Alloc st st' 0 := by
  simp only [Hcc.labelBlock, run_bind_iff, run_get_iff] at hr
  obtain ⟨_, _, ⟨rfl, rfl⟩, hr⟩ := hr
  split at hr
  case h_1 hl =>
    obtain ⟨rfl, rfl⟩ := run_pure_iff.mp hr
    exact ⟨hl, .refl h⟩
  case h_2 hl =>
    simp only [run_bind_iff, run_set_iff, run_pure_iff] at hr
    obtain ⟨_, _, rfl, rfl, rfl⟩ := hr
    exact Alloc.insert h hl

end Primitives

section Scopes

variable {s t : CompileState}

theorem CompileState.Valid.congr (h : s.Valid) (hn : s.nextBlock = t.nextBlock)
    (hl : s.labels = t.labels) : t.Valid where
  ordered   := hl ▸ h.ordered
  bound     := by
    simp only [CompileState.label?, ←hn, ←hl]
    exact h.bound
  injective := by
    simp only [CompileState.label?, ←hl]
    exact h.injective

-- Whatever is allocated within a scope is allocated outside of the scope, too.
theorem Alloc.congr (h : Alloc s t F) (hn : s.nextBlock = st.nextBlock) (hl : s.labels = st.labels)
    (hn' : t.nextBlock = st'.nextBlock) (hl' : t.labels = st'.labels)
    (hb : st'.breakTargets = st.breakTargets) (hc : st'.continueTargets = st.continueTargets) :
    Alloc st st' F where
  valid           := h.valid.congr hn' hl'
  le              := hn ▸ hn' ▸ h.le
  nodup           := h.nodup
  range           := hn ▸ hn' ▸ h.range
  keep            := by
    simp only [CompileState.label?, ←hl, ←hl']
    exact h.keep
  new             := by
    simp only [CompileState.label?, ←hl, ←hl', ←hn]
    exact h.new
  breakTargets    := hb
  continueTargets := hc

end Scopes
end Hcc
