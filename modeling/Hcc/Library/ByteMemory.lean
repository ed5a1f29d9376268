import Mathlib.Data.Nat.Basic
import Mathlib.Tactic.Ring

-- Byte-addressed memories and the numbers that are stored in them in little-endian order.
namespace ByteMemory

abbrev Memory (w : Nat) := BitVec w → BitVec 8

variable {w : Nat} {mem : Memory w} {a b : BitVec w} {n m v : Nat}

def read (mem : Memory w) (a : BitVec w) : (n : Nat) → Nat
  | 0     => 0
  | n + 1 => read mem a n + (mem (a + .ofNat w n)).toNat * 256 ^ n

def write (mem : Memory w) (a : BitVec w) (n v : Nat) : Memory w :=
  fun x => if (x - a).toNat < n then .ofNat 8 (v / 256 ^ (x - a).toNat) else mem x

-- The `n` bytes at `a` and the `m` bytes at `b` are different ones.
def Apart (a : BitVec w) (n : Nat) (b : BitVec w) (m : Nat) : Prop :=
  ∀ i < n, ∀ j < m, a + .ofNat w i ≠ b + .ofNat w j

theorem Apart.symm (h : Apart a n b m) : Apart b m a n :=
  fun i hi j hj he => h j hj i hi he.symm

theorem read_congr {mem' : Memory w} (h : ∀ i < n, mem' (a + .ofNat w i) = mem (a + .ofNat w i)) :
    read mem' a n = read mem a n := by
  induction n
  case zero => rfl
  case succ n hi =>
    rw [read, read, hi fun i hn => h i (by omega), h n (by omega)]

theorem write_apply (hn : n ≤ 2 ^ w) (hm : m < n) :
    write mem a n v (a + .ofNat w m) = .ofNat 8 (v / 256 ^ m) := by
  have h : (a + .ofNat w m - a).toNat = m := by
    rw [BitVec.add_comm, BitVec.add_sub_cancel, BitVec.toNat_ofNat, Nat.mod_eq_of_lt (by omega)]
  rw [write, h, if_pos hm]

theorem read_write_prefix (hn : n ≤ 2 ^ w) (hm : m ≤ n) :
    read (write mem a n v) a m = v % 256 ^ m := by
  induction m
  case zero => simp [read, Nat.mod_one]
  case succ m hi =>
    rw [read, hi (by omega), write_apply hn (by omega), BitVec.toNat_ofNat]
    exact (congrArg _ (Nat.mul_comm ..)).trans Nat.mod_pow_succ.symm

theorem read_write (hn : n ≤ 2 ^ w) : read (write mem a n v) a n = v % 256 ^ n :=
  read_write_prefix hn le_rfl

theorem write_of_apart (h : Apart a n b m) (hj : j < m) :
    write mem a n v (b + .ofNat w j) = mem (b + .ofNat w j) := by
  refine if_neg fun hl => h _ hl j hj ?_
  rw [BitVec.ofNat_toNat, BitVec.setWidth_eq, BitVec.add_comm, BitVec.sub_add_cancel]

theorem read_write_of_apart (h : Apart a n b m) : read (write mem a n v) b m = read mem b m :=
  read_congr fun _ hj => write_of_apart h hj

-- Two ranges are apart if their distance is known and does not wrap around.
theorem apart_of_distance {x y : Int} (h₁ : x + n ≤ y) (h₂ : y + m ≤ x + 2 ^ w) :
    Apart (a + .ofInt w x) n (a + .ofInt w y) m := by
  intro i hi j hj h
  rw [BitVec.add_assoc, BitVec.add_assoc, BitVec.add_right_inj, ←BitVec.ofInt_natCast,
    ←BitVec.ofInt_natCast, ←BitVec.ofInt_add, ←BitVec.ofInt_add] at h
  have hm := congrArg BitVec.toInt h
  rw [BitVec.toInt_ofInt, BitVec.toInt_ofInt, Int.bmod_eq_bmod_iff_bmod_sub_eq_zero] at hm
  have hd := (Int.dvd_neg.mpr <| Int.dvd_of_bmod_eq_zero hm)
  have hl := Int.le_of_dvd (by omega) hd
  push_cast at hl
  omega

end ByteMemory
