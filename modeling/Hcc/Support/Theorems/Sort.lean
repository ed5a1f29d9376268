import Hcc.Library.ExchangeSort
import Hcc.Support.Sort
import Mathlib.Tactic.SplitIfs

namespace Hcc.Support

open ByteMemory ExchangeSort

variable {w n a b i j count size : Nat} {base : BitVec w} {mem mem' : Memory w}

abbrev Element (size : Nat) :=
  Fin size → BitVec 8

def elements (mem : Memory w) (base : BitVec w) (count size : Nat) : Fin count → Element size :=
  fun i k => mem (base + .ofNat w (i * size + k))

section Swap

theorem add_ofNat_inj (ha : a < 2 ^ w) (hb : b < 2 ^ w) :
    base + .ofNat w a = base + .ofNat w b ↔ a = b := by
  rw [BitVec.add_right_inj]
  constructor
  case mpr => exact congrArg _
  case mp  =>
    intro h
    have h := congrArg BitVec.toNat h
    rwa [BitVec.toNat_ofNat, BitVec.toNat_ofNat, Nat.mod_eq_of_lt ha, Nat.mod_eq_of_lt hb] at h

theorem add_ofNat_succ : base + .ofNat w a + 1 = base + .ofNat w (a + 1) := by
  rw [BitVec.add_assoc]
  exact congrArg _ (BitVec.ofNat_add a 1).symm

theorem update_add_ofNat (ha : a < 2 ^ w) (hn : n < 2 ^ w) (v : BitVec 8) :
    Function.update mem (base + .ofNat w a) v (base + .ofNat w n) =
      if n = a then v else mem (base + .ofNat w n) := by
  rw [Function.update_apply]
  simp only [add_ofNat_inj hn ha]

-- Where the byte at `n` comes from when the ranges at `a` and `b` are swapped.
def swapped (a b size n : Nat) : Nat :=
  if a ≤ n ∧ n < a + size then n - a + b
  else if b ≤ n ∧ n < b + size then n - b + a
  else n

theorem swapped_succ (h : a + (size + 1) ≤ b) :
    swapped a b (size + 1) n =
      if n = a then b else if n = b then a else swapped (a + 1) (b + 1) size n := by
  unfold swapped
  split_ifs <;> omega

theorem swapBytes_apply (h : a + size ≤ b) (hb : b + size ≤ 2 ^ w) (hn : n < 2 ^ w) :
    swapBytes (base + .ofNat w a) (base + .ofNat w b) size mem (base + .ofNat w n) =
      mem (base + .ofNat w (swapped a b size n)) := by
  induction size generalizing a b mem
  case zero =>
    rw [swapBytes, swapped, if_neg (by omega), if_neg (by omega)]
  case succ size hi =>
    have hs : swapped (a + 1) (b + 1) size n < 2 ^ w := by unfold swapped; split_ifs <;> omega
    rw [swapBytes, add_ofNat_succ, add_ofNat_succ, hi (by omega) (by omega),
      update_add_ofNat (by omega) hs, update_add_ofNat (by omega) hs, swapped_succ h]
    unfold swapped
    split_ifs <;> first | rfl | omega

theorem mul_add_le (size : Nat) (hi : i < j) : i * size + size ≤ j * size := by
  rw [← Nat.succ_mul]
  exact Nat.mul_le_mul_right size hi

theorem swapped_element {k m : Nat} (hm : m < size) :
    swapped (i * size) (j * size) size (k * size + m) =
      (if k = i then j else if k = j then i else k) * size + m := by
  have hn {x : Nat} (hx : k ≠ x) : ¬(x * size ≤ k * size + m ∧ k * size + m < x * size + size) := by
    rcases Nat.lt_or_gt_of_ne hx with h | h <;> have h := mul_add_le size h <;> omega
  rw [swapped]
  by_cases hi : k = i
  case pos => subst hi; rw [if_pos (by omega), if_pos rfl]; omega
  case neg =>
    rw [if_neg (hn hi), if_neg hi]
    by_cases hj : k = j
    case pos => subst hj; rw [if_pos (by omega), if_pos rfl]; omega
    case neg => rw [if_neg (hn hj), if_neg hj]

theorem elements_swapBytes {i j : Fin count} (hs : count * size ≤ 2 ^ w) (hij : i < j) :
    elements (swapBytes (base + .ofNat w (i * size)) (base + .ofNat w (j * size)) size mem)
      base count size = elements mem base count size ∘ Equiv.swap i j := by
  funext k m
  have hj := (mul_add_le size j.isLt).trans hs
  have hk := (mul_add_le size k.isLt).trans hs
  rw [elements, swapBytes_apply (mul_add_le size hij) hj (by omega), swapped_element m.isLt]
  simp only [elements, Function.comp_apply, Equiv.swap_apply_def, Fin.ext_iff, apply_ite Fin.val]

end Swap

section Sorts

-- The memory beyond the array is the same.
def Beyond (base : BitVec w) (length : Nat) (mem mem' : Memory w) : Prop :=
  ∀ n < 2 ^ w, length ≤ n → mem' (base + .ofNat w n) = mem (base + .ofNat w n)

theorem Beyond.swapBytes (h : Beyond base (count * size) mem mem') (hs : count * size ≤ 2 ^ w)
    (hij : i < j) (hj : j < count) : Beyond base (count * size) mem
      (swapBytes (base + .ofNat w (i * size)) (base + .ofNat w (j * size)) size mem') := by
  intro n hn hl
  have hi := mul_add_le size hij
  have hj := mul_add_le size hj
  rw [swapBytes_apply hi (by omega) hn, swapped, if_neg (by omega), if_neg (by omega)]
  exact h n hn hl

-- The array has the same elements, and the rest of the memory is as before.
structure Arranged (base : BitVec w) (count size : Nat) (mem mem' : Memory w) : Prop where
  beyond : Beyond base (count * size) mem mem'
  perm   : (List.ofFn (elements mem' base count size)).Perm (List.ofFn (elements mem base count size))

variable {compar : Memory w → BitVec w → BitVec w → Int} {order : Element size → Element size → Int}

-- As long as only the array is changed, `compar` compares the bytes of its elements.
def Compares (compar : Memory w → BitVec w → BitVec w → Int) (order : Element size → Element size → Int)
    (base : BitVec w) (count : Nat) (mem : Memory w) : Prop :=
  ∀ mem', Beyond base (count * size) mem mem' → ∀ i j : Fin count,
    compar mem' (base + .ofNat w (i * size)) (base + .ofNat w (j * size)) =
      order (elements mem' base count size i) (elements mem' base count size j)

-- No element compares greater than a later one.
def NotGreater (order : Element size → Element size → Int) (x y : Element size) : Prop :=
  order x y ≤ 0

instance : DecidableRel (NotGreater order) :=
  fun x y => inferInstanceAs <| Decidable (order x y ≤ 0)

theorem Arranged.compareSwap {i j : Fin count} (ha : Arranged base count size mem mem')
    (hc : Compares compar order base count mem) (hs : count * size ≤ 2 ^ w) (hij : i < j) :
    elements (qsort.compareSwap compar base size i j mem') base count size =
      ExchangeSort.exchange (NotGreater order) i j (elements mem' base count size) ∧
    Arranged base count size mem (qsort.compareSwap compar base size i j mem') := by
  have he : elements (qsort.compareSwap compar base size i j mem') base count size =
      ExchangeSort.exchange (NotGreater order) i j (elements mem' base count size) := by
    rw [qsort.compareSwap, hc mem' ha.beyond, ExchangeSort.exchange]
    split
    case isTrue h =>
      have hn : ¬NotGreater order _ _ := not_le.mpr h
      rw [elements_swapBytes hs hij, if_neg hn]
    case isFalse h =>
      have hn : NotGreater order _ _ := not_lt.mp h
      rw [if_pos hn]
  refine ⟨he, ?_, ?_⟩
  · rw [qsort.compareSwap]
    split
    case isTrue  => exact ha.beyond.swapBytes hs hij j.isLt
    case isFalse => exact ha.beyond
  · rw [he]
    exact (exchange_ofFn i j).trans ha.perm

variable [Std.Refl (NotGreater order)] [IsTrans _ (NotGreater order)] [Std.Total (NotGreater order)]

-- The inner loop, which finds the element for position `i`.
theorem Arranged.later {i : Fin count} (ha : Arranged base count size mem mem')
    (hc : Compares compar order base count mem) (hs : count * size ≤ 2 ^ w) (hij : i < j) (hj : j ≤ count)
    (ht : Settled (NotGreater order) i (elements mem' base count size))
    (hl : Least (NotGreater order) i j (elements mem' base count size)) :
    Settled (NotGreater order) (i + 1)
      (elements (qsort.later compar base count size i j mem') base count size) ∧
    Arranged base count size mem (qsort.later compar base count size i j mem') := by
  fun_induction qsort.later compar base count size i j mem'
  case case1 j mem' hlt hi =>
    have ⟨he, ha⟩ := ha.compareSwap (j := ⟨j, hlt⟩) hc hs hij
    refine hi ha (by omega) hlt ?_ ?_ <;> rw [he]
    · exact ht.exchange (Nat.le_of_lt hij)
    · exact hl.exchange (j := ⟨j, hlt⟩) hij
  case case2 j mem' hlt =>
    obtain rfl : j = count := by omega
    exact ⟨ht.next hl, ha⟩

theorem Arranged.positions (ha : Arranged base count size mem mem')
    (hc : Compares compar order base count mem) (hs : count * size ≤ 2 ^ w) (hi : i ≤ count)
    (ht : Settled (NotGreater order) i (elements mem' base count size)) :
    Settled (NotGreater order) count
      (elements (qsort.positions compar base count size i mem') base count size) ∧
    Arranged base count size mem (qsort.positions compar base count size i mem') := by
  fun_induction qsort.positions compar base count size i mem'
  case case1 i mem' hlt ih =>
    have ⟨ht, ha⟩ := ha.later (i := ⟨i, hlt⟩) hc hs (Nat.lt_succ_self i) hlt ht .self
    exact ih ha hlt ht
  case case2 i mem' hlt =>
    obtain rfl : i = count := by omega
    exact ⟨ht, ha⟩

end Sorts

theorem qsort_sorts (order : Element size → Element size → Int)
    {compar : Memory w → BitVec w → BitVec w → Int} (hb : base ≠ 0) (hs : count * size ≤ 2 ^ w)
    (hc : Compares compar order base count mem)
    (htotal : ∀ x y, order x y ≤ 0 ∨ order y x ≤ 0)
    (htrans : ∀ x y z, order x y ≤ 0 → order y z ≤ 0 → order x z ≤ 0) :
    let sorted := qsort base count size (some compar) mem
    (List.ofFn (elements sorted base count size)).Perm (List.ofFn (elements mem base count size)) ∧
    (List.ofFn (elements sorted base count size)).Pairwise (fun x y => ¬order x y > 0) ∧
    Beyond base (count * size) mem sorted := by
  have : Std.Total (NotGreater order) := ⟨htotal⟩
  have : IsTrans _ (NotGreater order) := ⟨htrans⟩
  have ha : Arranged base count size mem mem := ⟨fun _ _ _ => rfl, .refl _⟩
  have ⟨ht, ha⟩ := ha.positions hc hs (Nat.zero_le count) .zero
  simp only [qsort, if_neg hb]
  exact ⟨ha.perm, ht.sorted.imp not_lt.mpr, ha.beyond⟩

-- Three elements of two bytes that are compared by their first bytes.
theorem qsort_sorts_descending :
    let sorted := qsort (w := 8) 16 3 2 (some fun mem a b => (mem a).toNat - (mem b).toNat) (0 - ·)
    (List.ofFn (elements sorted 16 3 2)).Perm (List.ofFn (elements (0 - ·) 16 3 2)) ∧
    (List.ofFn (elements sorted 16 3 2)).Pairwise
      (fun x y => ¬((x 0).toNat - (y 0).toNat : Int) > 0) ∧ Beyond 16 6 (0 - ·) sorted :=
  qsort_sorts (fun x y => (x 0).toNat - (y 0).toNat) (by decide) (by decide)
    (fun _ _ _ _ => rfl) (by omega) (by omega)

end Hcc.Support
