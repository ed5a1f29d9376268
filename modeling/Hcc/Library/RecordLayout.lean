import Mathlib.Algebra.Order.Ring.Int
import Mathlib.Tactic.Positivity
import Mathlib.Tactic.Ring
import Mathlib.Tactic.SplitIfs

-- The layout of records: each member is put at the next offset that its alignment divides, and the members of a
-- union are put at the first one.
namespace RecordLayout

structure Slot where
  size  : Int
  align : Int

-- An alignment is a power of two, and elements of an array are aligned if the first one is.
structure Slot.WellFormed (s : Slot) : Prop where
  align : ∃ k : Nat, s.align = 2 ^ k
  size  : 0 ≤ s.size
  dvd   : s.align ∣ s.size

variable {a b x y : Int} {s s' : Slot} {slots before mid after : List Slot} {isUnion : Bool}

def alignUp (offset align : Int) : Int :=
  offset + -offset % align

theorem le_alignUp (h : 0 < a) : x ≤ alignUp x a :=
  le_add_of_nonneg_right <| Int.emod_nonneg _ h.ne'

theorem dvd_alignUp : a ∣ alignUp x a := by
  have h : alignUp x a = a * -(-x / a) := by
    rw [alignUp, Int.emod_def]
    ring
  exact h ▸ Int.dvd_mul_right ..

theorem alignUp_of_dvd (h : a ∣ x) : alignUp x a = x := by
  rw [alignUp, Int.emod_eq_zero_of_dvd <| Int.dvd_neg.mpr h, add_zero]

-- The least of these offsets is taken.
theorem alignUp_le (h : 0 < a) (hx : x ≤ y) (hy : a ∣ y) : alignUp x a ≤ y := by
  have hd : a ∣ y - alignUp x a := Int.dvd_sub hy dvd_alignUp
  have hl : -a < y - alignUp x a := by
    have := Int.emod_lt_of_pos (-x) h
    rw [alignUp]
    omega
  have ⟨k, hk⟩ := hd
  have hk' : 0 ≤ k := by
    by_contra hn
    have : a * k ≤ a * -1 := Int.mul_le_mul_of_nonneg_left (by omega) h.le
    omega
  have := Int.mul_nonneg h.le hk'
  omega

section Powers

theorem Slot.WellFormed.pos (h : s.WellFormed) : 0 < s.align := by
  have ⟨k, hk⟩ := h.align
  rw [hk]
  positivity

-- The greater of two powers of two is a multiple of both.
theorem dvd_max_of_powers (ha : ∃ k : Nat, a = 2 ^ k) (hb : ∃ k : Nat, b = 2 ^ k) : a ∣ max a b := by
  obtain ⟨k, rfl⟩ := ha
  obtain ⟨m, rfl⟩ := hb
  by_cases h : k ≤ m
  case pos =>
    rw [max_eq_right <| pow_le_pow_right₀ (by decide) h]
    exact pow_dvd_pow 2 h
  case neg =>
    rw [max_eq_left <| pow_le_pow_right₀ (by decide) <| le_of_not_ge h]

theorem power_max (ha : ∃ k : Nat, a = 2 ^ k) (hb : ∃ k : Nat, b = 2 ^ k) : ∃ k : Nat, max a b = 2 ^ k := by
  rcases max_choice a b with h | h
  · rwa [h]
  · rwa [h]

def maxAlign (slots : List Slot) : Int :=
  slots.foldr (fun s a => max s.align a) 1

theorem maxAlign_power (h : ∀ s ∈ slots, s.WellFormed) : ∃ k : Nat, maxAlign slots = 2 ^ k := by
  induction slots
  case nil          => exact ⟨0, rfl⟩
  case cons _ _ hi =>
    have h := List.forall_mem_cons.mp h
    exact power_max h.left.align <| hi h.right

theorem maxAlign_pos (h : ∀ s ∈ slots, s.WellFormed) : 0 < maxAlign slots := by
  have ⟨k, hk⟩ := maxAlign_power h
  rw [hk]
  positivity

theorem dvd_maxAlign (h : ∀ s ∈ slots, s.WellFormed) (hs : s ∈ slots) : s.align ∣ maxAlign slots := by
  induction slots
  case nil => contradiction
  case cons s' slots hi =>
    have h := List.forall_mem_cons.mp h
    have hd := dvd_max_of_powers h.left.align <| maxAlign_power h.right
    cases hs
    case head    => exact hd
    case tail hs =>
      refine (hi h.right hs).trans ?_
      have hd := dvd_max_of_powers (maxAlign_power h.right) h.left.align
      rwa [max_comm] at hd

theorem one_le_maxAlign : 1 ≤ maxAlign slots := by
  induction slots
  case nil         => exact le_rfl
  case cons _ _ hi => exact hi.trans <| le_max_right ..

end Powers

section Records

-- The end of the members that are put after `start`.
def finish (start : Int) (slots : List Slot) : Int :=
  slots.foldl (fun x s => alignUp x s.align + s.size) start

def maxSize (slots : List Slot) : Int :=
  slots.foldr (fun s n => max s.size n) 0

def record (isUnion : Bool) (slots : List Slot) : Slot where
  size  := alignUp (if isUnion then maxSize slots else finish 0 slots) (maxAlign slots)
  align := maxAlign slots

-- The offset of the member `s` after the members `before`.
def offset (isUnion : Bool) (before : List Slot) (s : Slot) : Int :=
  if isUnion then 0 else alignUp (finish 0 before) s.align

theorem finish_cons : finish x (s :: slots) = finish (alignUp x s.align + s.size) slots := rfl

theorem finish_append : finish x (before ++ slots) = finish (finish x before) slots :=
  List.foldl_append

theorem le_finish (h : ∀ s ∈ slots, s.WellFormed) : x ≤ finish x slots := by
  induction slots generalizing x
  case nil          => exact le_rfl
  case cons s _ hi =>
    have h := List.forall_mem_cons.mp h
    have ha := le_alignUp (x := x) h.left.pos
    have hs := h.left.size
    exact (by omega : x ≤ alignUp x s.align + s.size).trans <| hi h.right

theorem maxSize_nonneg : 0 ≤ maxSize slots := by
  induction slots
  case nil         => exact le_rfl
  case cons _ _ hi => exact hi.trans <| le_max_right ..

theorem le_maxSize (h : s ∈ slots) : s.size ≤ maxSize slots := by
  induction slots
  case nil => contradiction
  case cons s' slots hi =>
    cases h
    case head   => exact le_max_left ..
    case tail h => exact (hi h).trans <| le_max_right ..

theorem le_record_size (h : ∀ s ∈ slots, s.WellFormed) :
    (if isUnion then maxSize slots else finish 0 slots) ≤ (record isUnion slots).size :=
  le_alignUp <| maxAlign_pos h

theorem record_wellFormed (h : ∀ s ∈ slots, s.WellFormed) : (record isUnion slots).WellFormed where
  align := maxAlign_power h
  dvd   := dvd_alignUp
  size  := by
    refine Int.le_trans ?_ <| le_record_size h
    split
    case isTrue  => exact maxSize_nonneg
    case isFalse => exact le_finish h

theorem offset_dvd : s.align ∣ offset isUnion before s := by
  rw [offset]
  split
  case isTrue  => exact Int.dvd_zero _
  case isFalse => exact dvd_alignUp

theorem offset_nonneg (h : ∀ s ∈ before, s.WellFormed) (hs : s.WellFormed) : 0 ≤ offset isUnion before s := by
  rw [offset]
  split
  case isTrue  => exact le_rfl
  case isFalse => exact (le_finish h).trans <| le_alignUp hs.pos

theorem offset_add_size_le (h : ∀ t ∈ before ++ s :: after, t.WellFormed) :
    offset isUnion before s + s.size ≤ (record isUnion (before ++ s :: after)).size := by
  refine Int.le_trans ?_ <| le_record_size h
  rw [offset]
  split
  case isTrue =>
    rw [zero_add]
    exact le_maxSize <| by simp
  case isFalse =>
    rw [finish_append, finish_cons]
    exact le_finish fun t ht => h t <| by simp [ht]

-- Members of a record do not overlap.
theorem offset_add_size_le_offset (h : ∀ t ∈ before ++ s :: mid ++ [s'], t.WellFormed) :
    offset false before s + s.size ≤ offset false (before ++ s :: mid) s' := by
  have hs := h s' <| by simp
  refine Int.le_trans ?_ <| le_alignUp hs.pos
  rw [finish_append, finish_cons]
  exact le_finish fun t ht => h t <| by simp [ht]

theorem align_dvd_record (h : ∀ t ∈ slots, t.WellFormed) (hs : s ∈ slots) :
    s.align ∣ (record isUnion slots).align :=
  dvd_maxAlign h hs

end Records
end RecordLayout
