import Hcc.Library.ByteMemory

-- What is written to a range of bytes.
namespace ByteMemory

variable {w n m i v : Nat} {mem mem' mem'' : Memory w} {a d s p x : BitVec w} {bytes : Nat → BitVec 8}

theorem succ_add_ofNat : p + 1 + .ofNat w i = p + .ofNat w (i + 1) := by
  rw [BitVec.add_assoc, BitVec.add_comm 1, BitVec.ofNat_add]
  rfl

theorem add_ofNat_zero : p + .ofNat w 0 = p :=
  BitVec.add_zero p

theorem add_ofNat_add : p + .ofNat w n + .ofNat w i = p + .ofNat w (n + i) := by
  rw [BitVec.add_assoc, ←BitVec.ofNat_add]

theorem add_ofNat_ne (hi : i < 2 ^ w) (hn : n < 2 ^ w) (h : i ≠ n) : p + .ofNat w i ≠ p + .ofNat w n := by
  intro he
  have he := congrArg BitVec.toNat <| (BitVec.add_right_inj p).mp he
  rw [BitVec.toNat_ofNat, BitVec.toNat_ofNat, Nat.mod_eq_of_lt hi, Nat.mod_eq_of_lt hn] at he
  exact h he

-- The address is none of the `n` bytes at `p`.
def Outside (x p : BitVec w) (n : Nat) : Prop :=
  ∀ i < n, x ≠ p + .ofNat w i

theorem Outside.mono (h : Outside x p m) (hn : n ≤ m) : Outside x p n :=
  fun i hi => h i <| Nat.lt_of_lt_of_le hi hn

theorem Outside.tail (h : Outside x p (n + 1)) : Outside x (p + 1) n := by
  intro i hi
  rw [succ_add_ofNat]
  exact h (i + 1) (by omega)

theorem Outside.head (h : Outside x p (n + 1)) : x ≠ p := by
  have h := h 0 (by omega)
  rwa [add_ofNat_zero] at h

theorem Outside.drop (h : Outside x p (n + m)) : Outside x (p + .ofNat w n) m := by
  intro i hi
  rw [add_ofNat_add]
  exact h (n + i) (by omega)

theorem outside_drop (h : n + m ≤ 2 ^ w) (hi : i < n) : Outside (p + .ofNat w i) (p + .ofNat w n) m := by
  intro j hj
  rw [add_ofNat_add]
  exact add_ofNat_ne (by omega) (by omega) (by omega)

theorem outside_head (h : n + 1 ≤ 2 ^ w) : Outside p (p + 1) n := by
  intro i hi
  have hn := add_ofNat_ne (p := p) (i := 0) (n := i + 1) (by omega) (by omega) (by omega)
  rwa [add_ofNat_zero, ←succ_add_ofNat] at hn

-- The bytes at `p` that are written first are not read at `d` afterwards.
def Ahead (p d : BitVec w) (n : Nat) : Prop :=
  ∀ j < n, ∀ i < j, p + .ofNat w i ≠ d + .ofNat w j

theorem Apart.ahead (h : Apart p n d n) : Ahead p d n :=
  fun j hj i hi => h i (hi.trans hj) j hj

theorem ahead_self (h : n ≤ 2 ^ w) : Ahead p p n :=
  fun _ hj _ hi => add_ofNat_ne (by omega) (by omega) hi.ne

theorem Ahead.drop (h : Ahead p d (n + m)) : Ahead (p + .ofNat w n) (d + .ofNat w n) m := by
  intro j hj i hi
  rw [add_ofNat_add, add_ofNat_add]
  exact h _ (by omega) _ (by omega)

theorem Ahead.outside (h : Ahead p d (n + m)) (hi : i < m) : Outside (d + .ofNat w (n + i)) p n :=
  fun j hj he => h (n + i) (by omega) j (by omega) he.symm

-- The `n` bytes at `d` are `bytes`, and nothing else is changed.
structure Stored (d : BitVec w) (n : Nat) (bytes : Nat → BitVec 8) (mem mem' : Memory w) : Prop where
  stored : ∀ i < n, mem' (d + .ofNat w i) = bytes i
  frame  : ∀ x, Outside x d n → mem' x = mem x

theorem Stored.zero : Stored d 0 bytes mem mem :=
  ⟨fun _ h => absurd h <| Nat.not_lt_zero _, fun _ _ => rfl⟩

theorem Stored.append (hn : n + m ≤ 2 ^ w) (h : Stored d n bytes mem mem')
    (h' : Stored (d + .ofNat w n) m (fun i => bytes (n + i)) mem' mem'') : Stored d (n + m) bytes mem mem'' where
  stored i hi := by
    by_cases hl : i < n
    case pos => rw [h'.frame _ <| outside_drop hn hl, h.stored i hl]
    case neg =>
      obtain ⟨j, rfl⟩ := Nat.exists_eq_add_of_le <| Nat.le_of_not_lt hl
      rw [←add_ofNat_add, h'.stored j (by omega)]
  frame x hx := by
    rw [h'.frame x hx.drop, h.frame x <| hx.mono <| Nat.le_add_right ..]

variable (mem a v) in
theorem stored_write (hn : n ≤ 2 ^ w) : Stored a n (fun i => .ofNat 8 (v / 256 ^ i)) mem (write mem a n v) where
  stored i hi := write_apply hn hi
  frame x hx  := by
    refine if_neg fun hl => hx _ hl ?_
    rw [BitVec.ofNat_toNat, BitVec.setWidth_eq, BitVec.add_comm, BitVec.sub_add_cancel]

theorem read_lt : read mem a n < 256 ^ n := by
  induction n
  case zero => exact Nat.one_pos
  case succ n hi =>
    rw [read, Nat.pow_succ]
    have hb := (mem (a + .ofNat w n)).isLt
    have hm : (mem (a + .ofNat w n)).toNat * 256 ^ n ≤ 255 * 256 ^ n := Nat.mul_le_mul_right _ (by omega)
    omega

theorem read_byte (hi : i < n) : BitVec.ofNat 8 (read mem a n / 256 ^ i) = mem (a + .ofNat w i) := by
  induction n
  case zero => exact absurd hi <| Nat.not_lt_zero _
  case succ n hn =>
    rw [read]
    by_cases he : i = n
    case pos =>
      subst he
      rw [Nat.add_mul_div_right _ _ (Nat.pow_pos (by decide)), Nat.div_eq_of_lt read_lt, Nat.zero_add]
      exact BitVec.ofNat_toNat ..
    case neg =>
      obtain ⟨k, rfl⟩ := Nat.exists_eq_add_of_le (show i + 1 ≤ n by omega)
      have hp : 256 ^ (i + 1 + k) = 256 ^ k * 256 * 256 ^ i := by ring
      rw [hp, ←Nat.mul_assoc, Nat.add_mul_div_right _ _ (Nat.pow_pos (by decide)), ←hn (by omega)]
      refine BitVec.eq_of_toNat_eq ?_
      rw [BitVec.toNat_ofNat, BitVec.toNat_ofNat, ←Nat.mul_assoc]
      exact Nat.add_mul_mod_self_right ..

-- What has been read is stored elsewhere.
variable (mem mem' a s) in
theorem stored_write_read (hn : n ≤ 2 ^ w) :
    Stored a n (fun i => mem' (s + .ofNat w i)) mem (write mem a n (read mem' s n)) := by
  have h := stored_write (read mem' s n) mem a hn
  exact ⟨fun i hi => (h.stored i hi).trans <| read_byte hi, h.frame⟩

end ByteMemory
