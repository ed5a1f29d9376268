import Hcc.Library.ByteRanges
import Hcc.Support.Strings
import Hcc.Support.Theorems.Sort
import Mathlib.Data.List.Infix
import Mathlib.Tactic.ByContra
import Mathlib.Tactic.IntervalCases

-- What the functions on memory and strings do to the bytes that they are given.
namespace Hcc.Support

open ByteMemory

variable {w n m i fuel : Nat} {mem mem' : Memory w} {d s p l r x : BitVec w} {a b text : List (BitVec 8)} {c : Int}

section Addresses

theorem add_ofNat_toNat (h : p.toNat + i < 2 ^ w) : (p + .ofNat w i).toNat = p.toNat + i := by
  rw [BitVec.toNat_add, BitVec.toNat_ofNat, Nat.mod_eq_of_lt (by omega : i < 2 ^ w), Nat.mod_eq_of_lt h]

end Addresses

section Moves

-- The `n` bytes at `d` are those that were at `s`, and nothing else is changed.
structure Moved (d s : BitVec w) (n : Nat) (mem mem' : Memory w) : Prop where
  copied : ∀ i < n, mem' (d + .ofNat w i) = mem (s + .ofNat w i)
  frame  : ∀ x, Outside x d n → mem' x = mem x

-- A byte is read before it is overwritten.
theorem memcpy_moves (hn : n ≤ 2 ^ w) (h : ∀ i < n, ∀ j < i, s + .ofNat w i ≠ d + .ofNat w j) :
    Moved d s n mem (memcpy d s n mem) := by
  induction n generalizing d s mem
  case zero        => exact ⟨nofun, fun _ _ => rfl⟩
  case succ n hi =>
    have ⟨hc, hf⟩ := @hi (Function.update mem d (mem s)) (d + 1) (s + 1) (by omega) fun i hi j hj => by
      rw [succ_add_ofNat, succ_add_ofNat]
      exact h (i + 1) (by omega) (j + 1) (by omega)
    refine ⟨fun i hi => ?_, fun x hx => ?_⟩
    case refine_2 =>
      rw [memcpy, hf x hx.tail, Function.update_of_ne hx.head]
    case refine_1 =>
      cases i
      case zero =>
        rw [add_ofNat_zero, add_ofNat_zero, memcpy, hf d (outside_head hn), Function.update_self]
      case succ i =>
        have hd := h (i + 1) hi 0 (by omega)
        rw [add_ofNat_zero] at hd
        rw [←succ_add_ofNat, memcpy, hc i (by omega), succ_add_ofNat, Function.update_of_ne hd]

theorem backward_moves (hn : n ≤ 2 ^ w) (h : ∀ j < n, ∀ i < j, s + .ofNat w i ≠ d + .ofNat w j) :
    Moved d s n mem (memmove.backward (d + .ofNat w n) (s + .ofNat w n) n mem) := by
  induction n generalizing mem
  case zero      => exact ⟨nofun, fun _ _ => rfl⟩
  case succ n hi =>
    have hp (p : BitVec w) : p + .ofNat w (n + 1) - 1 = p + .ofNat w n := by
      rw [←add_ofNat_succ, BitVec.add_sub_cancel]
    have ⟨hc, hf⟩ := @hi (Function.update mem (d + .ofNat w n) (mem (s + .ofNat w n))) (by omega)
      fun j hj => h j (by omega)
    rw [memmove.backward, hp, hp]
    refine ⟨fun i hi => ?_, fun x hx => ?_⟩
    case refine_2 =>
      rw [hf x fun i hi => hx i (by omega), Function.update_of_ne (hx n (by omega))]
    case refine_1 =>
      by_cases hin : i = n
      case pos =>
        subst hin
        rw [hf _ fun j hj => add_ofNat_ne (by omega) (by omega) (by omega), Function.update_self]
      case neg =>
        rw [hc i (by omega), Function.update_of_ne (h n (by omega) i (by omega))]

-- Objects that overlap are moved as if the source had been saved first.
theorem memmove_moves (dest src : BitVec w) (n : Nat) (mem : Memory w) (hd : dest.toNat + n ≤ 2 ^ w)
    (hs : src.toNat + n ≤ 2 ^ w) : Moved dest src n mem (memmove dest src n mem) := by
  have hne {i j : Nat} (hi : i < n) (hj : j < n) (h : src.toNat + i ≠ dest.toNat + j) :
      src + .ofNat w i ≠ dest + .ofNat w j := by
    intro he
    have he := congrArg BitVec.toNat he
    rw [add_ofNat_toNat (by omega), add_ofNat_toNat (by omega)] at he
    exact h he
  unfold memmove
  split
  case isTrue h =>
    have h : dest.toNat < src.toNat := h
    exact memcpy_moves (by omega) fun i hi j hj => hne hi (by omega) (by omega)
  case isFalse h =>
    have h : ¬dest.toNat < src.toNat := h
    exact backward_moves (by omega) fun j hj i hi => hne (by omega) hj (by omega)

theorem memmove_moves_overlap : Moved 3 1 4 (fun a => a) (memmove (3 : BitVec 8) 1 4 fun a => a) :=
  memmove_moves 3 1 4 _ (by decide) (by decide)

end Moves

section Strings

-- The bytes at `p` up to the first zero are `text`.
inductive CString (mem : Memory w) : BitVec w → List (BitVec 8) → Prop
  | nil {q} : mem q = 0 → CString mem q []
  | cons {q es} : mem q ≠ 0 → CString mem (q + 1) es → CString mem q (mem q :: es)

theorem CString.eq_nil (h : CString mem p text) (hp : mem p = 0) : text = [] := by
  cases h
  case nil       => rfl
  case cons hn _ => exact absurd hp hn

theorem CString.exists_cons (h : CString mem p text) (hp : mem p ≠ 0) :
    ∃ es, text = mem p :: es ∧ CString mem (p + 1) es := by
  cases h
  case nil hz    => exact absurd hz hp
  case cons _ hs => exact ⟨_, rfl, hs⟩

theorem CString.congr (h : CString mem p text)
    (hm : ∀ i ≤ text.length, mem' (p + .ofNat w i) = mem (p + .ofNat w i)) :
    CString mem' p text := by
  have h₀ := hm 0 (Nat.zero_le _)
  rw [add_ofNat_zero] at h₀
  induction h
  case nil p hp => exact .nil <| h₀.trans hp
  case cons p es hp _ hi =>
    have hm' : ∀ i ≤ es.length, mem' (p + 1 + .ofNat w i) = mem (p + 1 + .ofNat w i) := by
      intro i h
      rw [succ_add_ofNat]
      exact hm (i + 1) (by rw [List.length_cons]; omega)
    have h₁ := hm' 0 (Nat.zero_le _)
    rw [add_ofNat_zero] at h₁
    exact h₀ ▸ .cons (h₀ ▸ hp) (hi hm' h₁)

-- A comparison of lists of numbers whose first difference decides.
def order (a b : List Int) : Ordering :=
  List.compareLex compare a b

-- The characters of a string up to its terminator, as they are compared.
def terminated (text : List (BitVec 8)) : List Int :=
  text.map BitVec.toInt ++ [0]

theorem compare_sub {x y : Int} : compare (x - y) 0 = compare x y := by
  simp only [compare, compareOfLessAndEq]
  split_ifs <;> first | rfl | omega

theorem order_cons {x y : Int} {a b : List Int} : order (x :: a) (y :: b) = (compare x y).then (order a b) := by
  simp [order, List.compareLex_cons_cons]

theorem order_cons_self {x : Int} {a b : List Int} : order (x :: a) (x :: b) = order a b := by
  rw [order_cons, compare_eq_iff_eq.mpr rfl]
  rfl

theorem order_self (a : List Int) : order a a = .eq := by
  induction a
  case nil         => rfl
  case cons _ _ hi => rw [order_cons_self, hi]

theorem terminated_head (h : CString mem p text) : ∃ rest, terminated text = (mem p).toInt :: rest := by
  cases h
  case nil hp => exact ⟨[], by rw [hp]; rfl⟩
  case cons   => exact ⟨_, rfl⟩

theorem order_of_ne {as bs : List Int} {x y : BitVec 8} (h : x ≠ y) :
    compare (x.toInt - y.toInt) 0 = order (x.toInt :: as) (y.toInt :: bs) := by
  have hne : x.toInt ≠ y.toInt := fun he => h <| BitVec.eq_of_toInt_eq he
  rw [order_cons, compare_sub]
  cases hc : compare x.toInt y.toInt
  case eq => exact absurd (compare_eq_iff_eq.mp hc) hne
  all_goals rfl

-- At most `n` characters of both strings are compared, as signed ones.
theorem strncmp_order (ha : CString mem l a) (hb : CString mem r b) (n : Nat) :
    compare (strncmp mem l r n) 0 = order ((terminated a).take n) ((terminated b).take n) := by
  induction n generalizing l r a b
  case zero      => rfl
  case succ n hi =>
    have ⟨as, hta⟩ := terminated_head ha
    have ⟨bs, htb⟩ := terminated_head hb
    rw [strncmp]
    split
    case isTrue h =>
      obtain ⟨a, rfl, ha'⟩ := ha.exists_cons h.left
      obtain ⟨b, rfl, hb'⟩ := hb.exists_cons h.right.left
      have hc {e text} : (terminated (e :: text)).take (n + 1) = e.toInt :: (terminated text).take n := rfl
      rw [hi ha' hb', hc, hc, h.right.right.left, order_cons_self]
    case isFalse h =>
      rw [hta, htb, List.take_succ_cons, List.take_succ_cons]
      by_cases he : mem l = mem r
      case neg => exact order_of_ne he
      case pos =>
        have ht : as.take n = bs.take n := by
          by_cases hz : mem l = 0
          case pos =>
            rw [ha.eq_nil hz] at hta
            rw [hb.eq_nil (he ▸ hz)] at htb
            rw [(List.cons.inj hta).right.symm, (List.cons.inj htb).right.symm]
          case neg =>
            have hn : n = 0 := by
              by_contra hn
              exact h ⟨hz, he ▸ hz, he, by omega⟩
            rw [hn, List.take_zero, List.take_zero]
        rw [ht, he, Int.sub_self, order_self]
        rfl

theorem strcmp_order (ha : CString mem l a) (hb : CString mem r b) (hf : a.length < fuel) :
    ∃ result, strcmp mem fuel l r = some result ∧ compare result 0 = order (terminated a) (terminated b) := by
  induction fuel generalizing l r a b
  case zero         => exact absurd hf (Nat.not_lt_zero _)
  case succ fuel hi =>
    rw [strcmp]
    split
    case isTrue h =>
      obtain ⟨a, rfl, ha'⟩ := ha.exists_cons h.left
      obtain ⟨b, rfl, hb'⟩ := hb.exists_cons h.right.left
      have ⟨result, hr, ho⟩ := hi ha' hb' (Nat.lt_of_succ_lt_succ hf)
      have hc {e text} : terminated (e :: text) = e.toInt :: terminated text := rfl
      exact ⟨result, hr, by rw [ho, hc, hc, h.right.right, order_cons_self]⟩
    case isFalse h =>
      have ⟨as, hta⟩ := terminated_head ha
      have ⟨bs, htb⟩ := terminated_head hb
      refine ⟨_, rfl, ?_⟩
      by_cases he : mem l = mem r
      case neg => rw [hta, htb, order_of_ne he]
      case pos =>
        have hz : mem l = 0 := by
          by_contra hz
          exact h ⟨hz, he ▸ hz, he⟩
        rw [ha.eq_nil hz, hb.eq_nil (he ▸ hz), order_self, he, Int.sub_self]
        rfl

-- The bytes are compared as unsigned ones, and a zero does not end them.
theorem memcmp_order (mem : Memory w) (l r : BitVec w) (n : Nat) :
    compare (memcmp mem l r n) 0 = order ((List.range n).map fun i => ((mem (l + .ofNat w i)).toNat : Int))
      ((List.range n).map fun i => ((mem (r + .ofNat w i)).toNat : Int)) := by
  induction n generalizing l r
  case zero      => rfl
  case succ n hi =>
    simp only [List.range_succ_eq_map, List.map_cons, List.map_map, Function.comp_def, Nat.succ_eq_add_one,
      ←succ_add_ofNat, add_ofNat_zero]
    rw [memcmp, order_cons]
    split
    case isTrue h =>
      rw [hi, h.left, compare_eq_iff_eq.mpr rfl]
      rfl
    case isFalse h =>
      rw [compare_sub]
      by_cases he : mem l = mem r
      case pos =>
        have hn : n = 0 := by
          by_contra hn
          exact h ⟨he, by omega⟩
        rw [he, hn, compare_eq_iff_eq.mpr rfl]
        rfl
      case neg =>
        cases hc : compare ((mem l).toNat : Int) (mem r).toNat
        case eq => exact absurd (BitVec.eq_of_toNat_eq <| Int.ofNat.inj <| compare_eq_iff_eq.mp hc) he
        all_goals rfl

-- A memory with the strings "ab" at 1 and "b" at 8.
def twoStrings : Memory 8 := fun a =>
  if a = 1 then 97 else if a = 2 ∨ a = 8 then 98 else 0

theorem twoStrings_first : CString twoStrings 1 [97, 98] :=
  .cons (by decide) <| .cons (by decide) <| .nil rfl

theorem twoStrings_second : CString twoStrings 8 [98] :=
  .cons (by decide) <| .nil rfl

theorem strncmp_order_twoStrings :
    compare (strncmp twoStrings 1 8 3) 0 = order ((terminated [97, 98]).take 3) ((terminated [98]).take 3) :=
  strncmp_order twoStrings_first twoStrings_second 3

theorem strcmp_order_twoStrings : ∃ result, strcmp twoStrings 3 1 8 = some result ∧
    compare result 0 = order (terminated [97, 98]) (terminated [98]) :=
  strcmp_order twoStrings_first twoStrings_second (by decide)

-- The pointer to the first character that is `c`, which can be the terminator, or else the null pointer.
theorem strchr_eq (h : CString mem p text) (hf : text.length < fuel) : strchr mem c fuel p =
    some (match text.findIdx? (·.toInt = c) with
      | some i => p + .ofNat w i
      | none   => if c = 0 then p + .ofNat w text.length else 0) := by
  induction fuel generalizing p text
  case zero         => exact absurd hf (Nat.not_lt_zero _)
  case succ fuel hi =>
    rw [strchr]
    by_cases hz : mem p = 0
    case pos =>
      rw [h.eq_nil hz]
      by_cases hc : c = 0 <;> simp [hz, hc, eq_comm]
    case neg =>
      obtain ⟨es, rfl, hs⟩ := h.exists_cons hz
      rw [if_pos (.inl hz), List.findIdx?_cons]
      by_cases hc : (mem p).toInt = c
      case pos => simp [hc]
      case neg =>
        rw [if_neg hc, hi hs (Nat.lt_of_succ_lt_succ hf)]
        simp only [hc, decide_false, Bool.false_eq_true, if_false]
        cases es.findIdx? (·.toInt = c)
        case none   => simp only [Option.map_none, List.length_cons, succ_add_ofNat]
        case some i => simp only [Option.map_some, succ_add_ofNat]

theorem CString.ne_zero (h : CString mem p text) : ∀ e ∈ text, e ≠ 0 := by
  induction h
  case nil          => nofun
  case cons hn _ hi => exact List.forall_mem_cons.mpr ⟨hn, hi⟩

theorem strchr_zero (h : CString mem p text) (hf : text.length < fuel) :
    strchr mem 0 fuel p = some (p + .ofNat w text.length) := by
  have hn : text.findIdx? (·.toInt = 0) = none := by
    rw [List.findIdx?_eq_none_iff]
    intro e he
    exact decide_eq_false fun hz => h.ne_zero e he <| BitVec.eq_of_toInt_eq hz
  rw [strchr_eq h hf, hn]
  rfl

end Strings

section Copies

theorem Apart.tail (h : Apart d (n + 1) s (m + 1)) : Apart (d + 1) n (s + 1) m := by
  intro i hi j hj
  rw [succ_add_ofNat, succ_add_ofNat]
  exact h (i + 1) (by omega) (j + 1) (by omega)

-- The string is still there after a byte beside it has been written.
theorem CString.update (h : CString mem p text) {v : BitVec 8} (hx : Outside x p (text.length + 1)) :
    CString (Function.update mem x v) p text :=
  h.congr fun i hi => Function.update_of_ne (hx i (by omega)).symm _ _

-- The string `text` is at `d`, and only its bytes are changed.
structure Copied (d : BitVec w) (text : List (BitVec 8)) (mem mem' : Memory w) : Prop where
  copied : CString mem' d text
  frame  : ∀ x, Outside x d (text.length + 1) → mem' x = mem x

theorem strcpy_copies (h : CString mem s text) (ha : Apart d (text.length + 1) s (text.length + 1))
    (hn : text.length + 1 ≤ 2 ^ w) (hf : text.length < fuel) :
    ∃ mem', strcpy fuel d s mem = some mem' ∧ Copied d text mem mem' := by
  induction fuel generalizing d s text mem
  case zero         => exact absurd hf (Nat.not_lt_zero _)
  case succ fuel hi =>
    rw [strcpy]
    by_cases hz : mem s = 0
    case pos =>
      rw [h.eq_nil hz, if_neg (not_not.mpr hz)]
      exact ⟨_, rfl, .nil <| Function.update_self .., fun x hx => Function.update_of_ne hx.head _ _⟩
    case neg =>
      obtain ⟨es, rfl, hs⟩ := h.exists_cons hz
      rw [if_pos hz]
      have hd : Outside d (s + 1) (es.length + 1) := by
        intro i hi
        have hne := ha 0 (by omega) (i + 1) (by rw [List.length_cons]; omega)
        rwa [add_ofNat_zero, ←succ_add_ofNat] at hne
      have ⟨mem', hm, hc, hframe⟩ := hi (hs.update (v := mem s) hd) (Apart.tail ha) (Nat.le_of_succ_le hn)
        (Nat.lt_of_succ_lt_succ hf)
      have hmd : mem' d = mem s := by
        rw [hframe d (outside_head hn), Function.update_self]
      refine ⟨mem', hm, ?_, fun x hx => ?_⟩
      case refine_1 => exact hmd ▸ .cons (hmd ▸ hz) hc
      case refine_2 => rw [hframe x hx.tail, Function.update_of_ne hx.head]

theorem CString.append (ha : CString mem p a) (hb : CString mem (p + .ofNat w a.length) b) :
    CString mem p (a ++ b) := by
  induction ha
  case nil =>
    rwa [List.length_nil, add_ofNat_zero] at hb
  case cons hz _ hi =>
    rw [List.length_cons, ←succ_add_ofNat] at hb
    exact .cons hz <| hi hb

-- The bytes of a string before its terminator are kept.
theorem CString.extend (ha : CString mem p a) (hm : ∀ i < a.length, mem' (p + .ofNat w i) = mem (p + .ofNat w i))
    (hb : CString mem' (p + .ofNat w a.length) b) : CString mem' p (a ++ b) := by
  induction ha
  case nil =>
    rwa [List.length_nil, add_ofNat_zero] at hb
  case cons p es hz _ hi =>
    have h₀ := hm 0 (Nat.zero_lt_succ _)
    rw [add_ofNat_zero] at h₀
    rw [List.length_cons, ←succ_add_ofNat] at hb
    rw [List.cons_append, ←h₀]
    refine .cons (h₀ ▸ hz) <| hi (fun i h => ?_) hb
    rw [succ_add_ofNat]
    exact hm (i + 1) (Nat.succ_lt_succ h)

-- The first string is extended by the second one if there is room for both of them that is not the second one's.
theorem strcat_appends (dest src : BitVec w) (a b : List (BitVec 8)) (mem : Memory w) (fuel : Nat)
    (ha : CString mem dest a) (hb : CString mem src b) (hn : a.length + b.length + 1 ≤ 2 ^ w)
    (hab : Apart dest (a.length + b.length + 1) src (b.length + 1)) (hf : a.length + b.length < fuel) :
    ∃ mem', strcat fuel dest src mem = some mem' ∧ Copied dest (a ++ b) mem mem' := by
  have hp : Apart (dest + .ofNat w a.length) (b.length + 1) src (b.length + 1) := by
    intro i hi j hj
    rw [BitVec.add_assoc, ←BitVec.ofNat_add]
    exact hab (a.length + i) (by omega) j hj
  have ⟨mem', hm, hc⟩ := strcpy_copies hb hp (by omega) (by omega : b.length < fuel)
  have he (i : Nat) : dest + .ofNat w a.length + .ofNat w i = dest + .ofNat w (a.length + i) := by
    rw [BitVec.add_assoc, ←BitVec.ofNat_add]
  refine ⟨mem', ?_, ?_, fun x hx => hc.frame x fun i hi => ?_⟩
  case refine_1 =>
    rw [strcat, strchr_zero ha (by omega)]
    exact hm
  case refine_2 =>
    refine ha.extend (fun i hi => hc.frame _ fun j hj => ?_) hc.copied
    rw [he]
    exact add_ofNat_ne (by omega) (by omega) (by omega)
  case refine_3 =>
    rw [he]
    exact hx (a.length + i) (by rw [List.length_append]; omega)

theorem strcat_appends_twoStrings :
    ∃ mem', strcat 4 1 8 twoStrings = some mem' ∧ Copied 1 ([97, 98] ++ [98]) twoStrings mem' :=
  strcat_appends 1 8 [97, 98] [98] twoStrings 4 twoStrings_first twoStrings_second (by decide) (by
    intro i hi j hj
    simp only [List.length_cons, List.length_nil] at hi hj
    interval_cases i <;> interval_cases j <;> decide) (by decide)

-- The `n` bytes at `d` are `bytes`, and nothing else is changed.
structure Stored (d : BitVec w) (n : Nat) (bytes : Nat → BitVec 8) (mem mem' : Memory w) : Prop where
  stored : ∀ i < n, mem' (d + .ofNat w i) = bytes i
  frame  : ∀ x, Outside x d n → mem' x = mem x

-- The first byte is written before the others.
theorem Stored.succ {bytes : Nat → BitVec 8} (hn : n + 1 ≤ 2 ^ w)
    (h : Stored (d + 1) n (fun i => bytes (i + 1)) (Function.update mem d (bytes 0)) mem') :
    Stored d (n + 1) bytes mem mem' := by
  refine ⟨fun i hi => ?_, fun x hx => ?_⟩
  case refine_2 => rw [h.frame x hx.tail, Function.update_of_ne hx.head]
  case refine_1 =>
    cases i
    case zero   => rw [add_ofNat_zero, h.frame d (outside_head hn), Function.update_self]
    case succ i => rw [←succ_add_ofNat, h.stored i (by omega)]

theorem pad_stores (hn : n ≤ 2 ^ w) : Stored d n (fun _ => 0) mem (strncpy.pad d n mem) := by
  induction n generalizing d mem
  case zero      => exact ⟨nofun, fun _ _ => rfl⟩
  case succ n hi => exact .succ hn <| hi (by omega)

-- The rest of the `n` bytes is filled with zeros, and a longer string is cut off without a terminator.
theorem strncpy_stores (h : CString mem s text) (ha : Apart d n s (text.length + 1)) (hn : n ≤ 2 ^ w) :
    Stored d n (text.getD · 0) mem (strncpy d s n mem) := by
  induction n generalizing d s text mem
  case zero      => exact ⟨nofun, fun _ _ => rfl⟩
  case succ n hi =>
    rw [strncpy]
    by_cases hz : mem s = 0
    case pos =>
      rw [if_neg (not_not.mpr hz), h.eq_nil hz]
      exact pad_stores hn
    case neg =>
      obtain ⟨es, rfl, hs⟩ := h.exists_cons hz
      rw [if_pos hz]
      have hd : Outside d (s + 1) (es.length + 1) := by
        intro i hi
        have hne := ha 0 (by omega) (i + 1) (by rw [List.length_cons]; omega)
        rwa [add_ofNat_zero, ←succ_add_ofNat] at hne
      exact .succ hn <| hi (hs.update (v := mem s) hd) (Apart.tail ha) (by omega)

theorem strncpy_stores_twoStrings : Stored 2 3 ([98].getD · 0) twoStrings (strncpy 2 8 3 twoStrings) :=
  strncpy_stores twoStrings_second (by
    intro i hi j hj
    simp only [List.length_cons, List.length_nil] at hj
    interval_cases i <;> interval_cases j <;> decide) (by decide)

end Copies

section Search

-- The position of the first occurrence of `needle`.
structure FirstAt (needle haystack : List (BitVec 8)) (i : Nat) : Prop where
  occurs : needle <+: haystack.drop i
  first  : ∀ j < i, ¬needle <+: haystack.drop j

theorem scan_eq (ha : CString mem l a) (hb : CString mem r b) (hf : a.length < fuel) :
    strstr.scan mem fuel l r = some (decide (b <+: a)) := by
  induction fuel generalizing l r a b
  case zero         => exact absurd hf (Nat.not_lt_zero _)
  case succ fuel hi =>
    rw [strstr.scan]
    split
    case isTrue h =>
      obtain ⟨a, rfl, ha'⟩ := ha.exists_cons h.left
      obtain ⟨b, rfl, hb'⟩ := hb.exists_cons h.right.left
      rw [hi ha' hb' (Nat.lt_of_succ_lt_succ hf)]
      simp [h.right.right, List.cons_prefix_cons]
    case isFalse h =>
      refine congrArg some <| decide_eq_decide.mpr ?_
      by_cases hz : mem r = 0
      case pos => exact iff_of_true hz <| hb.eq_nil hz ▸ List.nil_prefix
      case neg =>
        refine iff_of_false hz fun hp => ?_
        obtain ⟨b, rfl, -⟩ := hb.exists_cons hz
        by_cases hl : mem l = 0
        case pos =>
          rw [ha.eq_nil hl] at hp
          exact nomatch List.prefix_nil.mp hp
        case neg =>
          obtain ⟨a, rfl, -⟩ := ha.exists_cons hl
          exact h ⟨hl, hz, (List.cons_prefix_cons.mp hp).left.symm⟩

theorem search_first {bound : Nat} (ha : CString mem l a) (hb : CString mem r b) (hz : b ≠ [])
    (hf : a.length < fuel)
    (hn : a.length < bound) : ∃ p, strstr.search mem bound r fuel l = some p ∧
      ((∃ i, p = l + .ofNat w i ∧ FirstAt b a i) ∨ p = 0 ∧ ∀ i, ¬b <+: a.drop i) := by
  induction fuel generalizing l a
  case zero         => exact absurd hf (Nat.not_lt_zero _)
  case succ fuel hi =>
    rw [strstr.search]
    by_cases hl : mem l = 0
    case pos =>
      refine ⟨0, by rw [if_neg (not_not.mpr hl)]; rfl, .inr ⟨rfl, fun i => ?_⟩⟩
      rw [ha.eq_nil hl, List.drop_nil]
      simpa using hz
    case neg =>
      obtain ⟨es, rfl, hs⟩ := ha.exists_cons hl
      rw [if_pos hl, scan_eq ha hb hn]
      by_cases hp : b <+: mem l :: es
      case pos =>
        refine ⟨l, by simp [hp], .inl ⟨0, add_ofNat_zero.symm, hp, nofun⟩⟩
      case neg =>
        have ⟨p, hr, hc⟩ := hi hs (Nat.lt_of_succ_lt_succ hf) (Nat.lt_of_succ_lt hn)
        refine ⟨p, by simpa [hp] using hr, ?_⟩
        rcases hc with ⟨i, rfl, ho, hfirst⟩ | ⟨rfl, hno⟩
        case inl =>
          refine .inl ⟨i + 1, succ_add_ofNat, ho, fun j hj => ?_⟩
          cases j
          case zero   => exact hp
          case succ j => exact hfirst j (by omega)
        case inr =>
          refine .inr ⟨rfl, fun i => ?_⟩
          cases i
          case zero   => exact hp
          case succ i => exact hno i

-- The result is the first occurrence of the needle, or the null pointer if there is none.
theorem strstr_first (haystack needle : BitVec w) (a b : List (BitVec 8)) (mem : Memory w) (fuel : Nat)
    (ha : CString mem haystack a) (hb : CString mem needle b) (hf : a.length < fuel) :
    ∃ p, strstr mem fuel haystack needle = some p ∧
      ((∃ i, p = haystack + .ofNat w i ∧ FirstAt b a i) ∨ p = 0 ∧ ∀ i, ¬b <+: a.drop i) := by
  unfold strstr
  split
  case isTrue hz =>
    refine ⟨haystack, rfl, .inl ⟨0, add_ofNat_zero.symm, ?_, nofun⟩⟩
    rw [hb.eq_nil hz]
    exact List.nil_prefix
  case isFalse hz =>
    refine search_first ha hb (fun hn => ?_) hf hf
    obtain ⟨es, he, -⟩ := hb.exists_cons hz
    exact nomatch he.symm.trans hn

theorem strstr_first_twoStrings : ∃ p, strstr twoStrings 3 1 8 = some p ∧
    ((∃ i, p = 1 + .ofNat 8 i ∧ FirstAt [98] [97, 98] i) ∨ p = 0 ∧ ∀ i, ¬[(98 : BitVec 8)] <+: [97, 98].drop i) :=
  strstr_first 1 8 [97, 98] [98] twoStrings 3 twoStrings_first twoStrings_second (by decide)

end Search
end Hcc.Support
