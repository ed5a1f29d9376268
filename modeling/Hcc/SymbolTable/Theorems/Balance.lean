import Hcc.SymbolTable.Theorems.Lookup
import Mathlib.Data.List.Induction

namespace Hcc

variable {α : Type} {l r t : Tree α} {n : Nat}

namespace Tree

def color : Tree α → Color
  | .E              => .B
  | .N c _ _ _ _ _  => c

-- The children of a red node are black.
def NoRedRed : Tree α → Prop
  | .E             => True
  | .N c _ _ _ l r => (c = .R → l.color = .B ∧ r.color = .B) ∧ l.NoRedRed ∧ r.NoRedRed

-- There are `n` black nodes on every path from the root.
def BlackHeight : Tree α → (n : Nat) → Prop
  | .E,              n     => n = 0
  | .N .R _ _ _ l r, n     => l.BlackHeight n ∧ r.BlackHeight n
  | .N .B _ _ _ l r, n + 1 => l.BlackHeight n ∧ r.BlackHeight n
  | .N .B _ _ _ _ _, 0     => False

structure RedBlack (t : Tree α) : Prop where
  root     : t.color = .B
  noRedRed : t.NoRedRed
  height   : ∃ n, t.BlackHeight n

-- Only the root can be a red node with red children.
def ChildrenNoRedRed : Tree α → Prop
  | .E             => True
  | .N _ _ _ _ l r => l.NoRedRed ∧ r.NoRedRed

theorem NoRedRed.children (h : t.NoRedRed) : t.ChildrenNoRedRed := by
  cases t
  case E => trivial
  case N => exact h.right

theorem ChildrenNoRedRed.of_black (h : t.ChildrenNoRedRed) (hc : t.color ≠ .R) : t.NoRedRed := by
  cases t
  case E => trivial
  case N => exact ⟨fun he => absurd he hc, h⟩

theorem blackHeight_balR (hl : l.BlackHeight n) (hr : r.BlackHeight n) :
    (balR x xh v l r).BlackHeight (n + 1) := by
  unfold balR
  split <;> (try split) <;> simp_all [BlackHeight]

theorem blackHeight_balL (hl : l.BlackHeight n) (hr : r.BlackHeight n) :
    (balL x xh v l r).BlackHeight (n + 1) := by
  unfold balL
  split <;> (try split) <;> first | exact blackHeight_balR hl hr | simp_all [BlackHeight]

theorem color_eq_black (h : ∀ x xh v l r, t ≠ .N .R x xh v l r) : t.color = .B := by
  cases t
  case E => rfl
  case N c x xh v l r =>
    cases c
    case R => exact absurd rfl (h x xh v l r)
    case B => rfl

theorem noRedRed_balR (hl : l.NoRedRed) (hr : r.ChildrenNoRedRed) :
    (balR x xh v l r).NoRedRed := by
  unfold balR
  split
  case h_1 rx rxh rv rl rr =>
    split
    case h_1 => simp_all [NoRedRed, ChildrenNoRedRed, color]
    case h_2 => simp_all [NoRedRed, ChildrenNoRedRed, color]
    case h_3 => exact ⟨nofun, hl, fun _ => ⟨color_eq_black (by grind), color_eq_black (by grind)⟩, hr⟩
  case h_2 h =>
    have hb : r.color = .B := color_eq_black h
    exact ⟨nofun, hl, hr.of_black (hb ▸ nofun)⟩

-- A red node with a red child is repaired on either side.
theorem noRedRed_balL (hl : l.ChildrenNoRedRed) (hr : r.ChildrenNoRedRed)
    (h : l.NoRedRed ∨ r.NoRedRed) : (balL x xh v l r).NoRedRed := by
  unfold balL
  split
  case h_1 lx lxh lv ll lr =>
    split
    case h_1 =>
      have hr : r.NoRedRed := h.resolve_left fun h => nomatch (h.left rfl).left
      simp_all [NoRedRed, ChildrenNoRedRed, color]
    case h_2 =>
      have hr : r.NoRedRed := h.resolve_left fun h => nomatch (h.left rfl).right
      simp_all [NoRedRed, ChildrenNoRedRed, color]
    case h_3 =>
      exact noRedRed_balR ⟨fun _ => ⟨color_eq_black (by grind), color_eq_black (by grind)⟩, hl⟩ hr
  case h_2 h =>
    have hb : l.color = .B := color_eq_black h
    exact noRedRed_balR (hl.of_black (hb ▸ nofun)) hr

theorem blackHeight_bal (hl : l.BlackHeight n) (hr : r.BlackHeight n) :
    (bal c x xh v l r).BlackHeight (if c = .B then n + 1 else n) := by
  cases c
  case R => exact ⟨hl, hr⟩
  case B => exact blackHeight_balL hl hr

theorem BlackHeight.alter_go (h : t.BlackHeight n) : (alterT.go k v kh t).BlackHeight n := by
  induction t generalizing n
  case E => exact ⟨h, h⟩
  case N c x xh old l r hl hr =>
    obtain ⟨m, rfl, h₁, h₂⟩ :
        ∃ m, n = (if c = .B then m + 1 else m) ∧ l.BlackHeight m ∧ r.BlackHeight m := by
      cases c <;> cases n <;> simp_all [BlackHeight]
    simp only [alterT.go]
    split
    case h_1 => exact blackHeight_bal (hl h₁) h₂
    case h_2 => cases c <;> exact ⟨h₁, h₂⟩
    case h_3 => exact blackHeight_bal h₁ (hr h₂)

-- Below a black node, the insertion can leave a red node with a red child.
theorem NoRedRed.alter_go (h : t.NoRedRed) : (alterT.go k v kh t).ChildrenNoRedRed ∧
    (t.color = .B → (alterT.go k v kh t).NoRedRed) := by
  induction t
  case E => exact ⟨⟨trivial, trivial⟩, fun _ => ⟨fun _ => ⟨rfl, rfl⟩, trivial, trivial⟩⟩
  case N c x xh old l r hl hr =>
    obtain ⟨hc, h₁, h₂⟩ := h
    obtain ⟨hl, hlb⟩ := hl h₁
    obtain ⟨hr, hrb⟩ := hr h₂
    simp only [alterT.go]
    split <;> cases c
    case h_1.R => exact ⟨⟨hlb (hc rfl).left, h₂⟩, by simp [color]⟩
    case h_1.B =>
      have hn : (balL x xh old (alterT.go k v kh l) r).NoRedRed := noRedRed_balL hl h₂.children (.inr h₂)
      exact ⟨hn.children, fun _ => hn⟩
    case h_2.R => exact ⟨⟨h₁, h₂⟩, by simp [color]⟩
    case h_2.B => exact ⟨⟨h₁, h₂⟩, fun _ => ⟨by simp, h₁, h₂⟩⟩
    case h_3.R => exact ⟨⟨h₁, hrb (hc rfl).right⟩, by simp [color]⟩
    case h_3.B =>
      have hn : (balL x xh old l (alterT.go k v kh r)).NoRedRed := noRedRed_balL h₁.children hr (.inl h₁)
      exact ⟨hn.children, fun _ => hn⟩

theorem RedBlack.empty : (.E : Tree α).RedBlack :=
  ⟨rfl, trivial, 0, rfl⟩

theorem redBlack_blacken (h : t.ChildrenNoRedRed) (hn : t.BlackHeight n) : (blacken t).RedBlack := by
  cases t
  case E => exact .empty
  case N c x xh v l r =>
    refine ⟨rfl, ⟨nofun, h⟩, ?_⟩
    cases c
    case R => exact ⟨n + 1, hn⟩
    case B => exact ⟨n, hn⟩

theorem RedBlack.alter (h : t.RedBlack) : (alterT k v t).RedBlack :=
  have ⟨_, hn⟩ := h.height
  redBlack_blacken h.noRedRed.alter_go.left hn.alter_go

end Tree

namespace SymbolMap

variable {m : SymbolMap α}

theorem Ordered.delete (h : m.Ordered) : (symbolMapDelete k m).Ordered :=
  (Tree.Ordered.alter h).left

theorem Ordered.lookup_delete (h : m.Ordered) :
    symbolMapLookup k (symbolMapDelete k' m) = if k = k' then none else symbolMapLookup k m := by
  have ⟨ho, he⟩ := Tree.Ordered.alter (k := k') (v := none) h
  refine Option.ext fun b => ?_
  simp only [symbolMapLookup, symbolMapDelete, deleteT]
  rw [ho.lookup_iff, he]
  split
  case isTrue hk  => simp [hk]
  case isFalse hk => simp [hk, h.lookup_iff]

inductive Operation (α : Type)
  | insert (key : String) (value : α)
  | delete (key : String)

namespace Operation

def key : Operation α → String
  | .insert key _ | .delete key => key

-- The value of the key after the operation.
def value : Operation α → Option α
  | .insert _ value => some value
  | .delete _       => none

def apply (m : SymbolMap α) : Operation α → SymbolMap α
  | .insert key value => symbolMapInsert key value m
  | .delete key       => symbolMapDelete key m

end Operation

def run (ops : List (Operation α)) : SymbolMap α :=
  ops.foldl Operation.apply symbolMapEmpty

-- The value that the last operation on the key leaves.
def lastValue (k : String) (ops : List (Operation α)) : Option α :=
  (ops.filter (·.key = k)).getLast?.bind Operation.value

theorem run_append_singleton (ops : List (Operation α)) (op) :
    run (ops ++ [op]) = op.apply (run ops) := by
  simp only [run, List.foldl_append, List.foldl_cons, List.foldl_nil]

theorem lastValue_append_singleton (ops : List (Operation α)) (op) :
    lastValue k (ops ++ [op]) = if k = op.key then op.value else lastValue k ops := by
  by_cases hk : op.key = k
  case pos => simp [lastValue, hk]
  case neg => simp [lastValue, hk, Ne.symm hk]

theorem Ordered.apply (h : m.Ordered) (op : Operation α) : (op.apply m).Ordered := by
  cases op
  case insert => exact h.insert
  case delete => exact h.delete

theorem Ordered.lookup_apply (h : m.Ordered) (op : Operation α) :
    symbolMapLookup k (op.apply m) = if k = op.key then op.value else symbolMapLookup k m := by
  cases op
  case insert => exact h.lookup_insert
  case delete => exact h.lookup_delete

theorem redBlack_apply (h : m.tree.RedBlack) (op : Operation α) : (op.apply m).tree.RedBlack := by
  cases op <;> exact h.alter

theorem ordered_run (ops : List (Operation α)) : (run ops).Ordered := by
  induction ops using List.reverseRecOn
  case nil => exact ordered_empty
  case append_singleton ops op hi => exact run_append_singleton ops op ▸ hi.apply op

theorem lookup_run (ops : List (Operation α)) : symbolMapLookup k (run ops) = lastValue k ops := by
  induction ops using List.reverseRecOn
  case nil => rfl
  case append_singleton ops op hi =>
    rw [run_append_singleton, (ordered_run ops).lookup_apply, lastValue_append_singleton, hi]

theorem redBlack_run (ops : List (Operation α)) : (run ops).tree.RedBlack := by
  induction ops using List.reverseRecOn
  case nil => exact .empty
  case append_singleton ops op hi => exact run_append_singleton ops op ▸ redBlack_apply hi op

-- A symbol map is a finite map, and its tree is a red-black tree.
theorem symbolMap_run (ops : List (Operation α)) :
    (∀ k, symbolMapLookup k (run ops) = lastValue k ops) ∧
    (run ops).tree.Ordered ∧ (run ops).tree.RedBlack :=
  ⟨fun _ => lookup_run ops, ordered_run ops, redBlack_run ops⟩

end SymbolMap
end Hcc
