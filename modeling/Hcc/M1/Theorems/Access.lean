import Hcc.M1.Emit
import Hcc.M1.Theorems.Machine

open ByteMemory

-- What the code that accesses the stack does.
namespace Hcc.M1

open Machine CInteger

variable {t : Target} {dst src r : Reg} {imm offset : Int}

section

variable {m : Machine t} {labels : String → Word t}

theorem ofInt_zero : BitVec.ofInt w 0 = 0#w := by
  simp

theorem exec_addImm_addImm {x y : Int} (h : Writable t dst) :
    (m.exec labels (.addImm dst src x)).exec labels (.addImm dst dst y) =
      m.exec labels (.addImm dst src (x + y)) := by
  simp only [exec, get_set h, set_set, BitVec.add_assoc, ←BitVec.ofInt_add]

theorem exec_addImm_zero (h : Writable t r) : m.exec labels (.addImm r r 0) = m := by
  simp only [exec, ofInt_zero, BitVec.add_zero, set_get h]

end

section AArch64

variable {m : Machine .aarch64} {labels : String → Word .aarch64}

theorem writable_aarch64 : Writable .aarch64 r :=
  nofun

theorem aarch64EmitAddSubImm_eq (h₁ : 0 ≤ imm) (h₂ : imm ≤ 4095) :
    aarch64EmitAddSubImm isSub dst src imm = [.addImm dst src (if isSub then -imm else imm)] := by
  have h : imm % 4096 = imm := by omega
  rw [aarch64EmitAddSubImm, h]

theorem run_aarch64EmitAddImmReg_loop (h : 0 < imm) :
    m.run labels (aarch64EmitAddImmReg.loop dst src imm) =
      m.exec labels (.addImm dst src imm) := by
  fun_induction aarch64EmitAddImmReg.loop generalizing m
  case case1 src remaining _ chunk hi =>
    have ⟨h₁, h₂, h₃⟩ : 0 < chunk ∧ chunk ≤ 4095 ∧ chunk ≤ remaining := by
      simp only [chunk]
      split <;> omega
    rw [aarch64EmitAddSubImm_eq (Int.le_of_lt h₁) h₂, run_append]
    by_cases hz : remaining = chunk
    case pos =>
      rw [hz, Int.sub_self, aarch64EmitAddImmReg.loop]
      rfl
    case neg =>
      rw [hi (by omega), run_cons, run_nil, exec_addImm_addImm writable_aarch64]
      exact congrArg _ <| congrArg _ <| add_sub_cancel ..
  case case2 => contradiction

theorem run_aarch64EmitAddImmReg (h : 0 ≤ imm) :
    m.run labels (aarch64EmitAddImmReg dst src imm) = m.exec labels (.addImm dst src imm) := by
  rw [aarch64EmitAddImmReg]
  split
  case isTrue hz =>
    cases hz
    split
    case isTrue => simp [exec]
    case isFalse he =>
      have he : dst = src := by simpa using he
      rw [he, exec_addImm_zero writable_aarch64]
      rfl
  case isFalse hz => exact run_aarch64EmitAddImmReg_loop (by omega)

theorem run_aarch64EmitSubImmReg (h : 0 ≤ imm) :
    m.run labels (aarch64EmitSubImmReg r imm) = m.exec labels (.addImm r r (-imm)) := by
  fun_induction aarch64EmitSubImmReg generalizing m
  case case1 remaining hp chunk hi =>
    have hc : 0 ≤ chunk ∧ chunk ≤ 4095 ∧ chunk ≤ remaining := by
      simp only [chunk]
      split <;> omega
    rw [aarch64EmitAddSubImm_eq hc.left hc.right.left, run_append, hi (by omega)]
    simp only [run_cons, run_nil, exec_addImm_addImm writable_aarch64, if_true]
    congr 2
    omega
  case case2 remaining hp =>
    have hz : remaining = 0 := by omega
    rw [hz, Int.neg_zero, exec_addImm_zero writable_aarch64]
    rfl

theorem run_aarch64EmitLoadStore_encodable (h : aarch64Encodable 8 offset) :
    m.run labels (aarch64EmitLoadStore isLoad 8 false r offset) =
      m.exec labels (if isLoad then .load 8 false 0 r offset else .store 8 0 r offset) := by
  simp [aarch64EmitLoadStore, h]

-- Other offsets are added to the address in another register.
theorem run_aarch64EmitLoadStore_far (h : ¬aarch64Encodable 8 offset) (ho : 0 ≤ offset) :
    let address := m.get r + .ofInt _ offset
    m.run labels (aarch64EmitLoadStore isLoad 8 false r offset) =
      if isLoad then (m.set 16 address).set 0 (m.load 8 false address)
      else (m.set 16 address).store 8 address (m.get 0) := by
  simp only [aarch64EmitLoadStore, if_neg h, run_append, run_aarch64EmitAddImmReg ho, run_cons, run_nil]
  cases isLoad
  all_goals
    simp only [exec, Bool.false_and, if_true, Bool.false_eq_true, if_false, get_set writable_aarch64,
      ofInt_zero, BitVec.add_zero]
    rfl

end AArch64

section RiscV64

variable {m : Machine .riscv64} {labels : String → Word .riscv64}

theorem writable_riscv64 (h : r ≠ 0) : Writable .riscv64 r :=
  fun _ => h

theorem writable_five : Writable .riscv64 5 :=
  writable_riscv64 <| by decide

theorem writable_seven : Writable .riscv64 7 :=
  writable_riscv64 <| by decide

theorem run_riscv64EmitMovReg (h : dst ≠ 0) :
    m.run labels (riscv64EmitMovReg dst src) = m.set dst (m.get src) := by
  rw [riscv64EmitMovReg]
  split
  case isTrue he =>
    rw [←he, set_get fun _ => h]
    rfl
  case isFalse => rfl

theorem run_riscv64EmitAddImmReg_loop (h : dst ≠ 0) :
    m.run labels (riscv64EmitAddImmReg.loop dst src imm) =
      m.exec labels (.addImm dst src imm) := by
  fun_induction riscv64EmitAddImmReg.loop generalizing m
  case case1 hi =>
    rw [run_cons, hi, exec_addImm_addImm fun _ => h, add_sub_cancel]
  case case2 hi =>
    rw [run_cons, hi, exec_addImm_addImm fun _ => h]
    congr 2
    omega
  case case3 => rfl

theorem run_riscv64EmitAddImmReg (h : dst ≠ 0) :
    m.run labels (riscv64EmitAddImmReg dst src imm) = m.exec labels (.addImm dst src imm) := by
  rw [riscv64EmitAddImmReg]
  split
  case isTrue hz =>
    rw [run_riscv64EmitMovReg h, hz, exec, ofInt_zero, BitVec.add_zero]
  case isFalse => exact run_riscv64EmitAddImmReg_loop h

-- The offset is materialised as a literal if it does not fit into the instruction.
def riscv64Direct (isLoad : Bool) (offset : Int) : Prop :=
  (isLoad ∧ offset ≥ -2048 ∧ offset ≤ 2047) ∨ (¬isLoad ∧ offset = 0)

theorem run_riscv64EmitLoadStore_direct (h : riscv64Direct isLoad offset) :
    m.run labels (riscv64EmitLoadStore isLoad 8 false r offset) =
      m.exec labels (if isLoad then .load 8 false 10 r offset else .store 8 10 r offset) := by
  rw [riscv64Direct] at h
  simp only [riscv64EmitLoadStore, riscv64EmitLoadStoreFrom, if_pos h]
  cases isLoad <;> rfl

theorem run_riscv64EmitLoadStore_literal (h : ¬riscv64Direct isLoad offset) (hr : r ≠ 5 ∧ r ≠ 6) :
    let address := m.get r + .ofInt _ offset
    let m' := (m.set 6 (labels "LITERAL")).set 5 address
    m.run labels (riscv64EmitLoadStore isLoad 8 false r offset) =
      if isLoad then m'.set 10 (m.load 8 false address) else m'.store 8 address (m.get 10) := by
  have hg : ((m.set 6 (labels "LITERAL")).set 5 (.ofInt _ offset)).get r = m.get r := by
    rw [get_set_of_ne hr.left, get_set_of_ne hr.right]
  rw [riscv64Direct] at h
  simp only [riscv64EmitLoadStore, riscv64EmitLoadStoreFrom, if_neg h, riscv64EmitLoadLiteral,
    List.cons_append, List.nil_append, run_cons, run_nil]
  cases isLoad
  all_goals
    simp only [exec, Bool.false_and, if_true, Bool.false_eq_true, if_false, hg, get_set writable_five,
      set_set, ofInt_zero, BitVec.add_zero]
    rfl

end RiscV64

section Stack

variable {m : Machine t} {labels : String → Word t}

-- The registers that hold addresses and offsets that cannot be encoded.
def Helper (t : Target) (r : Reg) : Prop :=
  (t = .aarch64 ∧ r = 16) ∨ (t = .riscv64 ∧ (r = 5 ∨ r = 6))

-- The registers that are overwritten by the access to an operand.
def Scratch (t : Target) (r : Reg) : Prop :=
  r = t.acc ∨ Helper t r

-- The code computes a value in the accumulator.
structure Loads (labels : String → Word t) (m : Machine t) (code : List Insn) (v : Word t) : Prop where
  keeps : Keeps m (m.run labels code) (Scratch t)
  acc   : (m.run labels code).get t.acc = v

theorem writable_acc : Writable t t.acc := by
  rintro rfl
  decide

theorem writable_sp : Writable t t.sp := by
  rintro rfl
  decide

theorem acc_ne_sp : t.acc ≠ t.sp := by
  cases t <;> decide

theorem scratch_acc : Scratch t t.acc :=
  .inl rfl

theorem helper_aarch64 : Helper .aarch64 16 :=
  .inl ⟨rfl, rfl⟩

theorem not_scratch_sp : ¬Scratch t t.sp := by
  cases t <;> simp [Scratch, Helper, Target.acc, Target.sp]

-- The address of an access that is not encodable in an instruction for RISC-V.
theorem keeps_literal {m : Machine .riscv64} {labels : String → Word .riscv64} :
    Keeps m ((m.set 6 (labels "LITERAL")).set 5 v) (Helper .riscv64) :=
  .trans (.set <| .inr ⟨rfl, .inr rfl⟩) (.set <| .inr ⟨rfl, .inl rfl⟩)

theorem Loads.of_keeps {m' : Machine t} (h₁ : Keeps m m' (Helper t))
    (h₂ : m.run labels code = m'.set t.acc v) : Loads labels m code v where
  keeps := h₂ ▸ (h₁.mono fun _ => .inr).trans (.set scratch_acc)
  acc   := h₂ ▸ get_set writable_acc

theorem Loads.of_set (h : m.run labels code = m.set t.acc v) : Loads labels m code v :=
  .of_keeps .refl h

theorem Loads.nil (h : m.get t.acc = v) : Loads labels m [] v where
  keeps := .refl
  acc   := h

theorem loads_loadStack (h : 0 ≤ offset) :
    Loads labels m (emitLoadStack t offset)
      (m.load t.wordBytes false (m.get t.sp + .ofInt _ offset)) := by
  cases t
  case amd64 => exact .of_set rfl
  case i386 => exact .of_set rfl
  case aarch64 =>
    by_cases hc : aarch64Encodable 8 offset
    case pos => exact .of_set <| run_aarch64EmitLoadStore_encodable hc
    case neg => exact .of_keeps (.set helper_aarch64) <| run_aarch64EmitLoadStore_far hc h
  case riscv64 =>
    by_cases hc : riscv64Direct true offset
    case pos => exact .of_set <| run_riscv64EmitLoadStore_direct hc
    case neg => exact .of_keeps keeps_literal <| run_riscv64EmitLoadStore_literal hc (by decide)

theorem loads_addressStack (h : 0 ≤ offset) :
    Loads labels m (emitAddressStack t offset) (m.get t.sp + .ofInt _ offset) := by
  cases t
  case amd64 => exact .of_set rfl
  case i386 => exact .of_set rfl
  case aarch64 => exact .of_set <| run_aarch64EmitAddImmReg h
  case riscv64 => exact .of_set <| run_riscv64EmitAddImmReg (by decide)

theorem keeps_storeStack (h : 0 ≤ offset) :
    Keeps (m.store t.wordBytes (m.get t.sp + .ofInt _ offset) (m.get t.acc))
      (m.run labels (emitStoreStack t offset)) (Helper t) := by
  cases t
  case amd64 => exact .refl
  case i386 => exact .refl
  case aarch64 =>
    by_cases hc : aarch64Encodable 8 offset
    case pos =>
      rw [emitStoreStack, run_aarch64EmitLoadStore_encodable hc]
      exact .refl
    case neg =>
      rw [emitStoreStack, run_aarch64EmitLoadStore_far hc h]
      exact .store <| .set helper_aarch64
  case riscv64 =>
    by_cases hc : riscv64Direct false offset
    case pos =>
      rw [emitStoreStack, run_riscv64EmitLoadStore_direct hc]
      exact .refl
    case neg =>
      rw [emitStoreStack, run_riscv64EmitLoadStore_literal hc (by decide)]
      exact .store keeps_literal

theorem push_eq :
    m.push v = (m.storeWord (m.get t.sp) (-1) v).set t.sp (wordAddress (m.get t.sp) (-1)) := by
  simp only [push, storeWord, wordAddress_neg_one]

theorem run_riscv64Push {m : Machine .riscv64} {labels : String → Word .riscv64} (h : r ≠ 2) :
    m.run labels [.addImm 2 2 (-8), .store 8 r 2 0] = m.push (m.get r) := by
  have hw : Writable .riscv64 2 := writable_riscv64 <| by decide
  have ha : m.get 2 + .ofInt _ (-8) = wordAddress (m.get 2) (-1) := by
    simp [wordAddress, Target.wordBytes]
  simp only [run_cons, run_nil, exec, ha, get_set hw, get_set_of_ne h, ofInt_zero, BitVec.add_zero]
  exact store_set.trans push_eq.symm

theorem run_push :
    m.run labels (emitPush t) =
      (m.storeWord (m.get t.sp) (-1) (m.get t.acc)).set t.sp (wordAddress (m.get t.sp) (-1)) := by
  cases t
  case riscv64 =>
    rw [emitPush, run_append, run_riscv64EmitAddImmReg (by decide)]
    exact (run_riscv64Push <| by decide).trans push_eq
  all_goals exact push_eq

theorem loads_immediate : Loads labels m (emitLoadImmediate t value) (.ofInt _ value) := by
  cases t
  case riscv64 =>
    rw [emitLoadImmediate, riscv64EmitLoadImmediate]
    split
    case isTrue =>
      refine .of_set <| (run_riscv64EmitAddImmReg <| by decide).trans ?_
      exact congrArg (m.set 10) <| BitVec.zero_add _
    case isFalse => exact .of_keeps (.set <| .inr ⟨rfl, .inr rfl⟩) rfl
  all_goals exact .of_set rfl

end Stack

section Calls

theorem callFree_aarch64EmitAddImmReg : CallFree (aarch64EmitAddImmReg dst src imm) := by
  have hl (src : Reg) (imm : Int) : CallFree (aarch64EmitAddImmReg.loop dst src imm) := by
    fun_induction aarch64EmitAddImmReg.loop
    case case1 hi => exact callFree_append.mpr ⟨by simp [aarch64EmitAddSubImm], hi⟩
    case case2 => exact callFree_nil
  rw [aarch64EmitAddImmReg]
  split
  case isTrue => split <;> simp
  case isFalse => exact hl src imm

theorem callFree_aarch64EmitLoadStore :
    CallFree (aarch64EmitLoadStore isLoad size isSigned base offset) := by
  simp only [aarch64EmitLoadStore]
  split <;> cases isLoad <;> simp [callFree_aarch64EmitAddImmReg]

theorem callFree_riscv64EmitAddImmReg : CallFree (riscv64EmitAddImmReg dst src imm) := by
  have hl (src : Reg) (imm : Int) : CallFree (riscv64EmitAddImmReg.loop dst src imm) := by
    fun_induction riscv64EmitAddImmReg.loop <;> simp_all
  rw [riscv64EmitAddImmReg, riscv64EmitMovReg]
  split
  case isTrue => split <;> simp
  case isFalse => exact hl src imm

theorem callFree_riscv64EmitLoadStore :
    CallFree (riscv64EmitLoadStore isLoad size isSigned base offset) := by
  simp only [riscv64EmitLoadStore, riscv64EmitLoadStoreFrom, riscv64EmitLoadLiteral]
  split <;> cases isLoad <;> simp

theorem callFree_loadStack : CallFree (emitLoadStack t offset) := by
  cases t
  case aarch64 => exact callFree_aarch64EmitLoadStore
  case riscv64 => exact callFree_riscv64EmitLoadStore
  all_goals simp [emitLoadStack]

theorem callFree_addressStack : CallFree (emitAddressStack t offset) := by
  cases t
  case aarch64 => exact callFree_aarch64EmitAddImmReg
  case riscv64 => exact callFree_riscv64EmitAddImmReg
  all_goals simp [emitAddressStack]

theorem callFree_push : CallFree (emitPush t) := by
  cases t
  case riscv64 => exact callFree_append.mpr ⟨callFree_riscv64EmitAddImmReg, by simp⟩
  all_goals simp [emitPush]

theorem callFree_loadImmediate : CallFree (emitLoadImmediate t value) := by
  cases t
  case riscv64 =>
    rw [emitLoadImmediate, riscv64EmitLoadImmediate]
    split
    case isTrue => exact callFree_riscv64EmitAddImmReg
    case isFalse => simp [riscv64EmitLoadLiteral]
  all_goals simp [emitLoadImmediate]

end Calls
end Hcc.M1
