import Hcc.SymbolTable.Basic
import Mathlib.Data.List.Basic

namespace Hcc

variable {α : Type} {p : α → Prop} {l r t : Tree α}

theorem cmpString_eq_iff : cmpString a b = .eq ↔ a = b := by
  have h (as bs) : cmpString.go as bs = .eq ↔ as = bs := by
    induction as generalizing bs <;> cases bs <;> simp [cmpString.go]
    case cons.cons a as hi b bs =>
      split_ifs with h₁ h₂
      · exact ⟨nofun, fun h => absurd h₁ (h.left ▸ Char.lt_irrefl _)⟩
      · exact ⟨nofun, fun h => absurd h₂ (h.left ▸ Char.lt_irrefl _)⟩
      · simp [hi, Char.le_antisymm (Char.not_lt.mp h₂) (Char.not_lt.mp h₁)]
  rw [cmpString, h, String.toList_inj]

theorem eq_of_cmpHash_eq (h : cmpHash a ha b hb = .eq) : a = b := by
  simp only [cmpHash] at h
  split_ifs at h
  exact cmpString_eq_iff.mp h

namespace Tree

def keys : Tree α → List String
  | .E             => []
  | .N _ x _ _ l r => x :: (keys l ++ keys r)

-- All values in the tree satisfy `p`.
def All (p : α → Prop) : Tree α → Prop
  | .E             => True
  | .N _ _ _ v l r => (∀ a, v = some a → p a) ∧ All p l ∧ All p r

theorem mem_keys_of_lookupH (h : lookupH k kh t = some a) : k ∈ t.keys := by
  induction t <;> simp only [lookupH] at h
  case E => contradiction
  case N hl hr =>
    split at h
    case h_1 => simp [keys, hl h]
    case h_2 he => simp [keys, eq_of_cmpHash_eq he]
    case h_3 => simp [keys, hr h]

theorem All.lookupH (ht : t.All p) (h : lookupH k kh t = some a) : p a := by
  induction t <;> simp only [Hcc.lookupH] at h
  case E => contradiction
  case N hl hr =>
    have ⟨hv, h₁, h₂⟩ := ht
    split at h
    case h_1 => exact hl h₁ h
    case h_2 => exact hv a h
    case h_3 => exact hr h₂ h

theorem All.mono (ht : t.All p) (h : ∀ {a}, p a → q a) : t.All q := by
  induction t
  case E         => trivial
  case N hl hr   => exact ⟨fun a ha => h (ht.1 a ha), hl ht.2.1, hr ht.2.2⟩

theorem all_balR (hv : ∀ a, v = some a → p a) (hl : l.All p) (hr : r.All p) :
    (balR x xh v l r).All p := by
  unfold balR
  split <;> (try split) <;> simp_all [All]

theorem all_balL (hv : ∀ a, v = some a → p a) (hl : l.All p) (hr : r.All p) :
    (balL x xh v l r).All p := by
  unfold balL
  split <;> (try split) <;> first | exact all_balR hv hl hr | simp_all [All]

theorem all_bal (hv : ∀ a, v = some a → p a) (hl : l.All p) (hr : r.All p) :
    (bal c x xh v l r).All p := by
  cases c
  case R => exact ⟨hv, hl, hr⟩
  case B => exact all_balL hv hl hr

theorem all_alterT (hv : ∀ a, v = some a → p a) (ht : t.All p) : (alterT k v t).All p := by
  have h : (alterT.go k v (hash k) t).All p := by
    induction t <;> simp only [alterT.go]
    case E => exact ⟨hv, trivial, trivial⟩
    case N hl hr =>
      have ⟨hw, h₁, h₂⟩ := ht
      split
      case h_1 => exact all_bal hw (hl h₁) h₂
      case h_2 => exact ⟨hv, h₁, h₂⟩
      case h_3 => exact all_bal hw h₁ (hr h₂)
  unfold alterT
  generalize alterT.go k v (hash k) t = t' at *
  cases t'
  case E => trivial
  case N => exact h

end Tree

namespace SymbolMap

variable {m : SymbolMap α}

def keys (m : SymbolMap α) : List String :=
  m.tree.keys

def All (p : α → Prop) (m : SymbolMap α) : Prop :=
  m.tree.All p

theorem mem_keys_of_lookup (h : symbolMapLookup k m = some a) : k ∈ m.keys :=
  Tree.mem_keys_of_lookupH h

theorem all_empty : (symbolMapEmpty : SymbolMap α).All p :=
  trivial

theorem All.mono (hm : m.All p) (h : ∀ {a}, p a → q a) : m.All q :=
  Tree.All.mono hm h

theorem All.insert (hm : m.All p) (ha : p a) : (symbolMapInsert k a m).All p :=
  Tree.all_alterT (fun _ h => Option.some.inj h ▸ ha) hm

theorem All.delete (hm : m.All p) : (symbolMapDelete k m).All p :=
  Tree.all_alterT (fun _ h => nomatch h) hm

theorem All.lookup (hm : m.All p) (h : symbolMapLookup k m = some a) : p a :=
  Tree.All.lookupH hm h

end SymbolMap
end Hcc
