import Hcc.SymbolTable.Theorems.Entries
import Mathlib.Data.String.Basic
import Mathlib.Data.Prod.Lex

namespace Hcc

variable {α : Type} {l r t : Tree α}

section Order

theorem cmpString_lt_iff : cmpString a b = .lt ↔ a < b := by
  have h (as bs : List Char) : cmpString.go as bs = .lt ↔ as < bs := by
    induction as generalizing bs <;> cases bs <;> simp only [cmpString.go, List.cons_lt_cons_iff]
    case nil.nil   => simp
    case nil.cons  => simp
    case cons.nil  => simp
    case cons.cons a as hi b bs =>
      rcases lt_trichotomy a b with h | rfl | h
      · simp [h]
      · simp [hi]
      · simp [h, h.asymm, h.ne']
  rw [cmpString, h, String.lt_iff_toList_lt]

theorem cmpString_gt_iff : cmpString a b = .gt ↔ b < a := by
  rcases hc : cmpString a b
  case lt => exact iff_of_false nofun (cmpString_lt_iff.mp hc).asymm
  case eq => exact iff_of_false nofun <| cmpString_eq_iff.mp hc ▸ lt_irrefl a
  case gt =>
    have hl := cmpString_lt_iff.not.mp (hc ▸ nofun : cmpString a b ≠ .lt)
    have he := cmpString_eq_iff.not.mp (hc ▸ nofun : cmpString a b ≠ .eq)
    simpa using lt_of_le_of_ne (not_lt.mp hl) (Ne.symm he)

-- The order of the keys of a tree.
def Before (a b : String) : Prop :=
  toLex (hash a, a) < toLex (hash b, b)

theorem Before.irrefl (a) : ¬Before a a :=
  lt_irrefl _

theorem Before.trans (h₁ : Before a b) (h₂ : Before b c) : Before a c :=
  lt_trans h₁ h₂

theorem before_of_cmpHash_lt (h : cmpHash a (hash a) b (hash b) = .lt) : Before a b := by
  simp only [cmpHash] at h
  simp only [Before, Prod.Lex.toLex_lt_toLex]
  split_ifs at h with h₁ h₂
  · exact .inl h₁
  · exact .inr ⟨le_antisymm (not_lt.mp h₂) (not_lt.mp h₁), cmpString_lt_iff.mp h⟩

theorem before_of_cmpHash_gt (h : cmpHash a (hash a) b (hash b) = .gt) : Before b a := by
  simp only [cmpHash] at h
  simp only [Before, Prod.Lex.toLex_lt_toLex]
  split_ifs at h with h₁ h₂
  · exact .inl h₂
  · exact .inr ⟨le_antisymm (not_lt.mp h₁) (not_lt.mp h₂), cmpString_gt_iff.mp h⟩

end Order

namespace Tree

-- The keys in order, each with its value.
def entries : Tree α → List (String × Option α)
  | .E             => []
  | .N _ x _ v l r => entries l ++ (x, v) :: entries r

def Hashed : Tree α → Prop
  | .E              => True
  | .N _ x xh _ l r => xh = hash x ∧ Hashed l ∧ Hashed r

-- A search tree.
structure Ordered (t : Tree α) : Prop where
  hashed : t.Hashed
  sorted : t.entries.Pairwise (Before ·.1 ·.1)

theorem entries_balR : (balR x xh v l r).entries = l.entries ++ (x, v) :: r.entries := by
  unfold balR
  split <;> (try split) <;> simp [entries]

theorem entries_balL : (balL x xh v l r).entries = l.entries ++ (x, v) :: r.entries := by
  unfold balL
  split <;> (try split) <;> simp [entries, entries_balR]

theorem entries_bal : (bal c x xh v l r).entries = l.entries ++ (x, v) :: r.entries := by
  cases c <;> simp [bal, entries, entries_balL]

theorem entries_blacken : (blacken t).entries = t.entries := by
  cases t <;> rfl

theorem hashed_balR (hl : l.Hashed) (hr : r.Hashed) : (balR x (hash x) v l r).Hashed := by
  unfold balR
  split <;> (try split) <;> simp_all [Hashed]

theorem hashed_balL (hl : l.Hashed) (hr : r.Hashed) : (balL x (hash x) v l r).Hashed := by
  unfold balL
  split <;> (try split) <;> first | exact hashed_balR hl hr | simp_all [Hashed]

theorem hashed_bal (hl : l.Hashed) (hr : r.Hashed) : (bal c x (hash x) v l r).Hashed := by
  cases c
  case R => exact ⟨rfl, hl, hr⟩
  case B => exact hashed_balL hl hr

theorem ordered_node_iff : Ordered (.N c x xh v l r) ↔
    xh = hash x ∧ l.Ordered ∧ r.Ordered ∧ (∀ e ∈ l.entries, Before e.1 x) ∧
      (∀ e ∈ r.entries, Before x e.1) := by
  constructor
  · intro ⟨⟨hx, hl, hr⟩, hs⟩
    simp only [entries, List.pairwise_append, List.pairwise_cons, List.mem_cons, forall_eq_or_imp] at hs
    exact ⟨hx, ⟨hl, hs.1⟩, ⟨hr, hs.2.1.2⟩, fun e he => (hs.2.2 e he).1, hs.2.1.1⟩
  · intro ⟨hx, hl, hr, hb, ha⟩
    refine ⟨⟨hx, hl.hashed, hr.hashed⟩, ?_⟩
    simp only [entries, List.pairwise_append, List.pairwise_cons, List.mem_cons, forall_eq_or_imp]
    exact ⟨hl.sorted, ⟨ha, hr.sorted⟩, fun e he => ⟨hb e he, fun f hf => (hb e he).trans (ha f hf)⟩⟩

-- The value of a key is the one that is listed for it.
theorem Ordered.lookup_iff (h : t.Ordered) : lookupT k t = some a ↔ (k, some a) ∈ t.entries := by
  induction t
  case E => simp [lookupT, lookupH, entries]
  case N c x xh v l r hl hr =>
    obtain ⟨rfl, hol, hor, hb, ha⟩ := ordered_node_iff.mp h
    have hl := hl hol
    have hr := hr hor
    simp only [lookupT, lookupH, entries, List.mem_append, List.mem_cons, Prod.mk.injEq] at hl hr ⊢
    rcases hc : cmpHash k (hash k) x (hash x)
    case lt =>
      have hk := before_of_cmpHash_lt hc
      have hx : k ≠ x := fun hx => Before.irrefl x <| hx ▸ hk
      have hr : (k, some a) ∉ r.entries := fun he => Before.irrefl k <| hk.trans <| ha _ he
      simp [hl, hr, hx]
    case eq =>
      obtain rfl := eq_of_cmpHash_eq hc
      have hl : (k, some a) ∉ l.entries := fun he => Before.irrefl k <| hb _ he
      have hr : (k, some a) ∉ r.entries := fun he => Before.irrefl k <| ha _ he
      simp [hl, hr, eq_comm]
    case gt =>
      have hk := before_of_cmpHash_gt hc
      have hx : k ≠ x := fun hx => Before.irrefl x <| hx ▸ hk
      have hl : (k, some a) ∉ l.entries := fun he => Before.irrefl k <| (hb _ he).trans hk
      simp [hl, hr, hx]

theorem Ordered.bal (h : Ordered (.N c x (hash x) v l r)) : (bal c x (hash x) v l r).Ordered where
  hashed := hashed_bal h.hashed.2.1 h.hashed.2.2
  sorted := entries_bal ▸ h.sorted

theorem Ordered.alter_go (h : t.Ordered) : (alterT.go k v (hash k) t).Ordered ∧
    ∀ e, e ∈ (alterT.go k v (hash k) t).entries ↔ e = (k, v) ∨ e ∈ t.entries ∧ e.1 ≠ k := by
  induction t
  case E => exact ⟨⟨⟨rfl, trivial, trivial⟩, by simp [alterT.go, entries]⟩, by simp [alterT.go, entries]⟩
  case N c x xh old l r hl hr =>
    obtain ⟨rfl, hol, hor, hb, ha⟩ := ordered_node_iff.mp h
    obtain ⟨hol', hml⟩ := hl hol
    obtain ⟨hor', hmr⟩ := hr hor
    simp only [alterT.go]
    rcases hc : cmpHash k (hash k) x (hash x)
    case lt =>
      have hk := before_of_cmpHash_lt hc
      have hx : x ≠ k := fun hx => Before.irrefl x <| hx ▸ hk
      have hne e (he : e ∈ r.entries) : e.1 ≠ k := fun hn => Before.irrefl k <| hk.trans <| hn ▸ ha e he
      refine ⟨.bal <| ordered_node_iff.mpr ⟨rfl, hol', hor, fun e he => ?_, ha⟩, fun e => ?_⟩
      · rcases (hml e).mp he with rfl | ⟨he, _⟩
        · exact hk
        · exact hb e he
      · simp only [entries_bal, entries, List.mem_append, List.mem_cons, hml]
        grind
    case eq =>
      obtain rfl := eq_of_cmpHash_eq hc
      refine ⟨ordered_node_iff.mpr ⟨rfl, hol, hor, hb, ha⟩, fun e => ?_⟩
      have hnl (he : e ∈ l.entries) : e.1 ≠ k := fun hn => Before.irrefl k <| hn ▸ hb e he
      have hnr (he : e ∈ r.entries) : e.1 ≠ k := fun hn => Before.irrefl k <| hn ▸ ha e he
      simp only [entries, List.mem_append, List.mem_cons]
      grind
    case gt =>
      have hk := before_of_cmpHash_gt hc
      have hx : x ≠ k := fun hx => Before.irrefl x <| hx ▸ hk
      have hne e (he : e ∈ l.entries) : e.1 ≠ k := fun hn => Before.irrefl k <| (hn ▸ hb e he).trans hk
      refine ⟨.bal <| ordered_node_iff.mpr ⟨rfl, hol, hor', hb, fun e he => ?_⟩, fun e => ?_⟩
      · rcases (hmr e).mp he with rfl | ⟨he, _⟩
        · exact hk
        · exact ha e he
      · simp only [entries_bal, entries, List.mem_append, List.mem_cons, hmr]
        grind

theorem Ordered.alter (h : t.Ordered) : (alterT k v t).Ordered ∧
    ∀ e, e ∈ (alterT k v t).entries ↔ e = (k, v) ∨ e ∈ t.entries ∧ e.1 ≠ k := by
  have ⟨ho, he⟩ := h.alter_go (k := k) (v := v)
  have hh : (alterT k v t).Hashed := by
    have hh := ho.hashed
    unfold alterT
    cases hg : alterT.go k v (hash k) t <;> rwa [hg] at hh
  rw [alterT, entries_blacken]
  exact ⟨⟨hh, by rw [entries_blacken]; exact ho.sorted⟩, he⟩

end Tree

namespace SymbolMap

variable {m : SymbolMap α}

def Ordered (m : SymbolMap α) : Prop :=
  m.tree.Ordered

theorem ordered_empty : (symbolMapEmpty : SymbolMap α).Ordered :=
  ⟨trivial, .nil⟩

@[simp]
theorem lookup_empty : symbolMapLookup k (symbolMapEmpty : SymbolMap α) = none := rfl

theorem Ordered.insert (h : m.Ordered) : (symbolMapInsert k a m).Ordered :=
  (Tree.Ordered.alter h).left

theorem Ordered.lookup_insert (h : m.Ordered) :
    symbolMapLookup k (symbolMapInsert k' a m) = if k = k' then some a else symbolMapLookup k m := by
  have ⟨ho, he⟩ := Tree.Ordered.alter (k := k') (v := some a) h
  refine Option.ext fun b => ?_
  simp only [symbolMapLookup, symbolMapInsert, insertT]
  rw [ho.lookup_iff, he]
  split
  case isTrue hk  => simp [hk, eq_comm]
  case isFalse hk => simp [hk, h.lookup_iff]

end SymbolMap
end Hcc
