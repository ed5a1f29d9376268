import Hcc.M1.Theorems.Access

-- The addition of immediates that do not fit into one instruction.
namespace Hcc.M1

open Machine

variable {t : Target} {dst src r : Reg} {imm : Int} {insn : Insn}

section Encoding

-- The bytes of the instructions, as they are printed.
def aarch64AddSubImmBytes (isSub : Bool) (dst src imm : Nat) : List Nat :=
  [((src &&& 7) <<< 5) ||| dst, (src >>> 3) ||| ((imm &&& 63) <<< 2), (imm >>> 6) &&& 63, if isSub then 209 else 145]

def aarch64MovRegBytes (dst src : Nat) : List Nat :=
  [224 + dst, 3, src, 170]

def aarch64InsnBytes : Insn → List Nat
  | .move dst src       => aarch64MovRegBytes dst src
  | .addImm dst src imm => aarch64AddSubImmBytes (imm < 0) dst src imm.natAbs
  | _                   => []

-- The instructions that add or subtract an unshifted immediate, and the one that moves a register.
def aarch64Decode : List Nat → Option Insn
  | [b₀, b₁, b₂, b₃] =>
    let word := b₀ + 256 * b₁ + 65536 * b₂ + 16777216 * b₃
    let rd := word % 32
    let rn := word / 32 % 32
    let imm := word / 1024 % 4096
    if word / 4194304 = 580 then some (.addImm rd rn imm)
    else if word / 4194304 = 836 then some (.addImm rd rn (-imm))
    else if word / 2097152 = 1360 ∧ imm % 64 = 0 ∧ rn = 31 then some (.move rd (word / 65536 % 32))
    else none
  | _                => none

theorem aarch64AddSubImmBytes_eq {dst src imm : Nat} (hd : dst < 32) (hs : src < 32) :
    aarch64AddSubImmBytes isSub dst src imm =
      [src % 8 * 32 + dst, src / 8 + imm % 64 * 4, imm / 64 % 64, if isSub then 209 else 145] := by
  have h₇ (n : Nat) : n &&& 7 = n % 8 := Nat.and_two_pow_sub_one_eq_mod n 3
  have h₆₃ (n : Nat) : n &&& 63 = n % 64 := Nat.and_two_pow_sub_one_eq_mod n 6
  have h₁ : ((src &&& 7) <<< 5) ||| dst = src % 8 * 32 + dst := by
    rw [h₇, ←Nat.shiftLeft_add_eq_or_of_lt hd, Nat.shiftLeft_eq]
  have h₂ : (src >>> 3) ||| ((imm &&& 63) <<< 2) = src / 8 + imm % 64 * 4 := by
    have hl : src >>> 3 < 2 ^ 2 := by
      rw [Nat.shiftRight_eq_div_pow]
      omega
    rw [h₆₃, Nat.or_comm, ←Nat.shiftLeft_add_eq_or_of_lt hl, Nat.shiftLeft_eq, Nat.shiftRight_eq_div_pow]
    omega
  have h₃ : (imm >>> 6) &&& 63 = imm / 64 % 64 := by
    rw [h₆₃, Nat.shiftRight_eq_div_pow]
  rw [aarch64AddSubImmBytes, h₁, h₂, h₃]

-- The fields of the instruction word.
theorem aarch64_word {dst src imm opcode : Nat} (hi : imm < 4096) :
    src % 8 * 32 + dst + 256 * (src / 8 + imm % 64 * 4) + 65536 * (imm / 64 % 64) + 16777216 * opcode =
      dst + 32 * src + 1024 * imm + 16777216 * opcode := by
  omega

-- The bytes of an addition are decoded to the addition, as long as the immediate fits into twelve bits.
theorem aarch64Decode_addImm {dst src : Nat} (hd : dst < 32) (hs : src < 32) (hi : imm.natAbs < 4096) :
    aarch64Decode (aarch64InsnBytes (.addImm dst src imm)) = some (.addImm dst src imm) := by
  have hw opcode : _ = dst + 32 * src + 1024 * imm.natAbs + 16777216 * opcode := aarch64_word hi
  rw [aarch64InsnBytes, aarch64AddSubImmBytes_eq hd hs]
  simp only [aarch64Decode, decide_eq_true_eq, hw]
  have rd opcode : (dst + 32 * src + 1024 * imm.natAbs + 16777216 * opcode) % 32 = dst := by omega
  have rn opcode : (dst + 32 * src + 1024 * imm.natAbs + 16777216 * opcode) / 32 % 32 = src := by omega
  by_cases hn : imm < 0
  case pos =>
    simp only [hn, if_true]
    rw [if_neg (by omega), if_pos (by omega), Option.some_inj, Insn.addImm.injEq]
    exact ⟨rd _, rn _, by omega⟩
  case neg =>
    simp only [hn, if_false]
    rw [if_pos (by omega), Option.some_inj, Insn.addImm.injEq]
    exact ⟨rd _, rn _, by omega⟩

theorem aarch64Decode_move {dst src : Nat} (hd : dst < 32) (hs : src < 32) :
    aarch64Decode (aarch64InsnBytes (.move dst src)) = some (.move dst src) := by
  simp only [aarch64InsnBytes, aarch64MovRegBytes, aarch64Decode]
  have rd : (224 + dst + 256 * 3 + 65536 * src + 16777216 * 170) % 32 = dst := by omega
  have rm : (224 + dst + 256 * 3 + 65536 * src + 16777216 * 170) / 65536 % 32 = src := by omega
  rw [if_neg (by omega), if_neg (by omega), if_pos (by omega), Option.some_inj, Insn.move.injEq]
  exact ⟨rd, rm⟩

end Encoding

section Exact

variable {code : List Insn}

-- The destination is the sum of the source and the immediate, and nothing else changes.
structure Adds (m m' : Machine t) (dst src : Reg) (imm : Int) : Prop where
  sum  : m'.get dst = m.get src + .ofInt _ imm
  regs : ∀ r, r ≠ dst → m'.get r = m.get r
  mem  : m'.mem = m.mem

theorem adds_addImm {m : Machine t} {labels : String → Word t} (h : Writable t dst) :
    Adds m (m.exec labels (.addImm dst src imm)) dst src imm where
  sum      := get_set h
  regs _ h := get_set_of_ne h
  mem      := rfl

def ImmediateIn (lo hi : Int) : Insn → Prop
  | .addImm _ _ imm => lo ≤ imm ∧ imm ≤ hi
  | _               => True

theorem riscv64EmitAddImmReg_chunks : ∀ insn ∈ riscv64EmitAddImmReg dst src imm, ImmediateIn (-2048) 2047 insn := by
  have hl src imm : ∀ insn ∈ riscv64EmitAddImmReg.loop dst src imm, ImmediateIn (-2048) 2047 insn := by
    fun_induction riscv64EmitAddImmReg.loop
    case case1 hi => exact List.forall_mem_cons.mpr ⟨by simp [ImmediateIn], hi⟩
    case case2 hi => exact List.forall_mem_cons.mpr ⟨by simp [ImmediateIn], hi⟩
    case case3    => simp [ImmediateIn]; omega
  rw [riscv64EmitAddImmReg, riscv64EmitMovReg]
  split_ifs
  · simp
  · simp [ImmediateIn]
  · exact hl src imm

-- An instruction whose bytes are those of no other instruction.
def Encoded (insn : Insn) : Prop :=
  aarch64Decode (aarch64InsnBytes insn) = some insn

theorem aarch64EmitAddImmReg_chunks (hd : dst < 32) (hs : src < 32) :
    ∀ insn ∈ aarch64EmitAddImmReg dst src imm, ImmediateIn 0 4095 insn ∧ Encoded insn := by
  have hl base imm (hb : base < 32) :
      ∀ insn ∈ aarch64EmitAddImmReg.loop dst base imm, ImmediateIn 0 4095 insn ∧ Encoded insn := by
    fun_induction aarch64EmitAddImmReg.loop
    case case2 => simp
    case case1 base remaining h chunk hi =>
      obtain ⟨h₁, h₂⟩ : 0 < chunk ∧ chunk ≤ 4095 := by
        simp only [chunk]
        split <;> omega
      rw [aarch64EmitAddSubImm_eq (Int.le_of_lt h₁) h₂]
      simp only [Bool.false_eq_true, if_false]
      exact List.forall_mem_cons.mpr ⟨⟨⟨Int.le_of_lt h₁, h₂⟩, aarch64Decode_addImm hd hb (by omega)⟩, hi hd⟩
  rw [aarch64EmitAddImmReg]
  split_ifs
  · exact fun insn h => List.mem_singleton.mp h ▸ ⟨trivial, aarch64Decode_move hd hs⟩
  · simp
  · exact hl src imm hs

theorem aarch64EmitSubImmReg_chunks (hr : r < 32) :
    ∀ insn ∈ aarch64EmitSubImmReg r imm, ImmediateIn (-4095) 0 insn ∧ Encoded insn := by
  fun_induction aarch64EmitSubImmReg
  case case2 => simp
  case case1 remaining h chunk hi =>
    obtain ⟨h₁, h₂⟩ : 0 < chunk ∧ chunk ≤ 4095 := by
      simp only [chunk]
      split <;> omega
    rw [aarch64EmitAddSubImm_eq (Int.le_of_lt h₁) h₂]
    simp only [if_true]
    exact List.forall_mem_cons.mpr ⟨⟨⟨by omega, by omega⟩, aarch64Decode_addImm hr hr (by omega)⟩, hi⟩

end Exact

-- The additions and subtractions of immediates are exact for every register that can hold a value, in instructions whose
-- immediates can be encoded.
theorem emitAddImmReg_exact :
    (∀ (m : Machine .riscv64) labels dst src imm, dst ≠ 0 →
      Adds m (m.run labels (riscv64EmitAddImmReg dst src imm)) dst src imm ∧
      ∀ insn ∈ riscv64EmitAddImmReg dst src imm, ImmediateIn (-2048) 2047 insn) ∧
    (∀ (m : Machine .aarch64) labels dst src imm, dst < 31 → src < 31 → 0 ≤ imm →
      Adds m (m.run labels (aarch64EmitAddImmReg dst src imm)) dst src imm ∧
      ∀ insn ∈ aarch64EmitAddImmReg dst src imm, ImmediateIn 0 4095 insn ∧ Encoded insn) ∧
    ∀ (m : Machine .aarch64) labels r imm, r < 31 → 0 ≤ imm →
      Adds m (m.run labels (aarch64EmitSubImmReg r imm)) r r (-imm) ∧
      ∀ insn ∈ aarch64EmitSubImmReg r imm, ImmediateIn (-4095) 0 insn ∧ Encoded insn := by
  refine ⟨fun m labels dst src imm hd => ⟨?_, riscv64EmitAddImmReg_chunks⟩,
    fun m labels dst src imm hd hs hi => ⟨?_, aarch64EmitAddImmReg_chunks (Nat.lt_succ_of_lt hd) (Nat.lt_succ_of_lt hs)⟩,
    fun m labels r imm hr hi => ⟨?_, aarch64EmitSubImmReg_chunks (Nat.lt_succ_of_lt hr)⟩⟩
  · rw [run_riscv64EmitAddImmReg hd]
    exact adds_addImm <| writable_riscv64 hd
  · rw [run_aarch64EmitAddImmReg hi]
    exact adds_addImm writable_aarch64
  · rw [run_aarch64EmitSubImmReg hi]
    exact adds_addImm writable_aarch64

-- The zero register does not hold the sum.
theorem riscv64EmitAddImmReg_zero :
    ¬∀ (m : Machine .riscv64) labels dst src imm,
      (m.run labels (riscv64EmitAddImmReg dst src imm)).get dst = m.get src + .ofInt _ imm := by
  intro h
  have h := h ⟨fun _ => 0, fun _ => 0⟩ (fun _ => 0) 0 0 1
  simp [Machine.get] at h
  exact absurd h (by decide)

end Hcc.M1
