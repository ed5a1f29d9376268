import Mathlib.Data.Finset.Card
import Mathlib.Data.Multiset.DershowitzManna
import Mathlib.Data.Multiset.AddSub

-- Rewriting of streams whose elements carry hide sets: an element may only be replaced on account of
-- a name that is not hidden at it, and its replacement hides that name. The hide sets alone do not
-- decrease along a stream, so each element is assigned a guard, which is a lower bound of its hide
-- set. The guards only grow towards the head of the stream.
namespace GuardedStream

variable {ν : Type}

structure Guard (ν : Type) where
  hidden : Set ν
  names  : Finset ν
  sound  : ∀ n ∈ names, n ∈ hidden

structure Guarded (stream : List (Set ν)) (guards : List (Guard ν)) : Prop where
  hidden : guards.map Guard.hidden = stream
  nested : guards.Pairwise fun g h => h.names ⊆ g.names

variable {s s' front rest replaced : List (Set ν)} {gs gs' : List (Guard ν)} {hidden last : Set ν}

theorem exists_guarded (stream : List (Set ν)) : ∃ gs, Guarded stream gs :=
  ⟨stream.map fun h => ⟨h, ∅, nofun⟩, by simp [Function.comp_def],
    List.pairwise_map.mpr <| List.pairwise_of_forall fun _ _ => subset_rfl⟩

theorem Guarded.sublist (h : Guarded s gs) (hs : s'.Sublist s) :
    ∃ gs', gs'.Sublist gs ∧ Guarded s' gs' := by
  rw [←h.hidden] at hs
  have ⟨gs', hg, hs⟩ := List.sublist_map_iff.mp hs
  exact ⟨gs', hg, hs.symm, h.nested.sublist hg⟩

section Weight

variable [DecidableEq ν] (keys : Finset ν)

-- The number of names that may still be replaced at an element.
def level (g : Guard ν) : Nat :=
  (keys \ g.names).card

def weight (gs : List (Guard ν)) : Multiset Nat :=
  gs.map (level keys)

def Lighter (gs' gs : List (Guard ν)) : Prop :=
  (weight keys gs').IsDershowitzMannaLT (weight keys gs)

theorem lighter_wellFounded : WellFounded (Lighter (ν := ν) keys) :=
  InvImage.wf (weight keys) Multiset.wellFounded_isDershowitzMannaLT

variable {keys}

theorem weight_append : weight keys (gs ++ gs') = weight keys gs + weight keys gs' := by
  simp [weight]

-- A replacement of a part of a stream by elements that are at a lower level.
theorem lighter_of_level {ns : List (Guard ν)} (h : ∀ n ∈ ns, level keys n < level keys g) :
    Lighter keys (ns ++ gs') (gs ++ g :: gs') := by
  refine ⟨weight keys gs', weight keys ns, weight keys (gs ++ [g]), ?_, ?_, ?_, ?_⟩
  · simp [weight]
  · rw [weight_append, add_comm]
  · rw [List.append_cons, weight_append, add_comm]
  · intro y hy
    have ⟨n, hn, he⟩ := List.mem_map.mp <| Multiset.mem_coe.mp hy
    exact ⟨level keys g, by simp [weight], he ▸ h n hn⟩

theorem lighter_of_sublist (h : gs'.Sublist gs) (hl : gs'.length < gs.length) :
    Lighter keys gs' gs := by
  have hw : weight keys gs' ≤ weight keys gs := Multiset.coe_le.mpr (h.map _).subperm
  have ⟨w, hw⟩ := Multiset.le_iff_exists_add.mp hw
  refine ⟨weight keys gs', 0, w, ?_, by simp, hw, by simp⟩
  rintro rfl
  have := congrArg Multiset.card hw
  simp [weight] at this
  omega

-- Every proper substream is lighter.
theorem Guarded.exists_lighter_sublist (h : Guarded s gs) (hs : s'.Sublist s)
    (hl : s'.length < s.length) : ∃ gs', Guarded s' gs' ∧ Lighter keys gs' gs := by
  have ⟨gs', hg, h'⟩ := h.sublist hs
  refine ⟨gs', h', lighter_of_sublist hg ?_⟩
  rwa [←h.hidden, ←h'.hidden, List.length_map, List.length_map] at hl

-- Replacing the front of a stream, up to `last`, makes it lighter if the replacement hides all names
-- that are hidden at both ends of the front, and the replaced name itself.
theorem Guarded.exists_lighter_replacement
    (h : Guarded (hidden :: rest) gs) (he : hidden :: rest = front ++ last :: s)
    (hk : n ∈ keys) (hn : n ∉ hidden)
    (hr : ∀ r ∈ replaced, n ∈ r ∧ ∀ m ∈ hidden, m ∈ last → m ∈ r) :
    ∃ gs', Guarded (replaced ++ s) gs' ∧ Lighter keys gs' gs := by
  have ⟨fs, ls, hgs, hfs, hls⟩ := List.map_eq_append_iff.mp <| h.hidden.trans he
  have ⟨g, gs', hls', hg, hgs'⟩ := List.map_eq_cons_iff.mp hls
  have hnest := h.nested
  subst hgs hls' hg
  -- The guard at the end of the front is below the guard at its beginning.
  have hsub : ∀ m ∈ g.names, m ∈ hidden := by
    have hh := h.hidden
    cases fs
    case nil =>
      simp at hh
      exact hh.left ▸ g.sound
    case cons f fs =>
      simp at hh
      intro m hm
      have := (List.pairwise_cons.mp hnest).left g (by simp)
      exact hh.left ▸ f.sound m (this hm)
  have hng : n ∉ g.names := fun hm => hn <| hsub n hm
  let ns := replaced.attach.map fun r => Guard.mk r.val (insert n g.names) <| by
    have ⟨h₁, h₂⟩ := hr r.val r.property
    intro m hm
    rcases Finset.mem_insert.mp hm with rfl | hm
    · exact h₁
    · exact h₂ m (hsub m hm) (g.sound m hm)
  refine ⟨ns ++ gs', ⟨?_, ?_⟩, lighter_of_level ?_⟩
  · simp [ns, hgs', List.map_map, Function.comp_def]
  · have hn := hnest.sublist (List.sublist_append_right ..)
    refine List.pairwise_append.mpr ⟨?_, hn.of_cons, ?_⟩
    · exact List.pairwise_map.mpr <| List.pairwise_of_forall fun _ _ => subset_rfl
    · simp only [ns, List.mem_map, forall_exists_index, and_imp]
      rintro _ _ _ rfl h hh
      exact ((List.pairwise_cons.mp hn).left h hh).trans (Finset.subset_insert ..)
  · simp only [ns, List.mem_map, forall_exists_index, and_imp, level]
    rintro _ _ _ rfl
    apply Finset.card_lt_card
    refine ⟨Finset.sdiff_subset_sdiff subset_rfl (Finset.subset_insert ..), fun hc => ?_⟩
    have := hc (Finset.mem_sdiff.mpr ⟨hk, hng⟩)
    simp at this

end Weight
end GuardedStream
