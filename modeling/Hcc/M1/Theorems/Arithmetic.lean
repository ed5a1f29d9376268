import Hcc.M1.Theorems.Access
import Hcc.M1.Theorems.Alu

-- The emitted arithmetic implements the operators of the IR.
namespace Hcc.M1

open Machine Words

variable {t : Target} {labels : String → Word t} {op : BinOp}

-- The code leaves a value in the accumulator.
def Leaves (labels : String → Word t) (s : Core t) (code : List CodeLine) (v : Word t) : Prop :=
  ∃ s', runLines labels s code = some (.falls s') ∧ s'.machine.get t.acc = v

theorem leaves_alus {s s' : Core t} {code : List CodeLine} (alus : List Alu)
    (hc : code.mapM (decode t) = some (alus.map .alu)) (h : alus.foldlM Alu.exec s = some s') :
    Leaves labels s code (s'.machine.get t.acc) :=
  ⟨s', (runLines_eq hc).trans <| runSteps_alus h, rfl⟩

section Operations

variable {a b : Word t} {alu : AluOp}

-- The instruction with registers for all of its operands that implements an operator.
def aluOp : BinOp → Option AluOp
  | .add  => some .add
  | .sub  => some .sub
  | .mul  => some .mul
  | .and  => some .and
  | .or   => some .or
  | .xor  => some .xor
  | .shl  => some .shl
  | .shr  => some .shr
  | .sar  => some .sar
  | .lt   => some <| .less true
  | .ult  => some <| .less false
  | .div  => some <| .quot true
  | .udiv => some <| .quot false
  | .mod  => some <| .rem true
  | .umod => some <| .rem false
  | _     => none

theorem aluOp_eval (h : aluOp op = some alu) (hd : op.Defined a b) : alu.eval t a b = op.eval a b := by
  cases op
  case shl | shr | sar =>
    cases h
    rw [AluOp.eval, Nat.mod_eq_of_lt hd]
    rfl
  case div | mod =>
    cases h
    exact if_neg hd.left
  case udiv | umod =>
    cases h
    exact if_neg hd
  all_goals
    cases h
    try simp [AluOp.eval, BinOp.eval, truth]

theorem eval_of_condition (h : op.condition = some c) : op.eval a b = truth t.bits (c.holds a b) := by
  cases op
  all_goals
    cases h
    try rfl

end Operations

section X86

-- The accumulator is register 0 and the scratch register is register 3.
def x86Alus : BinOp → List Alu
  | .add  => [.compute .add 0 0 3]
  | .sub  => [.compute .sub 3 3 0, .move 0 3]
  | .mul  => [.mulWide 3]
  | .and  => [.compute .and 0 0 3]
  | .or   => [.compute .or 0 0 3]
  | .xor  => [.compute .xor 0 0 3]
  | .div  => [.exchange 0 3, .signWide, .divWide true 3]
  | .mod  => [.exchange 0 3, .signWide, .divWide true 3, .move 0 2]
  | .udiv => [.exchange 0 3, .compute .xor 2 2 2, .divWide false 3]
  | .umod => [.exchange 0 3, .compute .xor 2 2 2, .divWide false 3, .move 0 2]
  | .shl  => [.move 1 0, .move 0 3, .compute .shl 0 0 1]
  | .shr  => [.move 1 0, .move 0 3, .compute .shr 0 0 1]
  | .sar  => [.move 1 0, .move 0 3, .compute .sar 0 0 1]
  | .eq   => [.compare 3 0, .setByte .eq, .extend false 8]
  | .ne   => [.compare 3 0, .setByte .ne, .extend false 8]
  | .lt   => [.compare 3 0, .setByte .lt, .extend false 8]
  | .le   => [.compare 3 0, .setByte .le, .extend false 8]
  | .gt   => [.compare 3 0, .setByte .gt, .extend false 8]
  | .ge   => [.compare 3 0, .setByte .ge, .extend false 8]
  | .ult  => [.compare 3 0, .setByte .ult, .extend false 8]
  | .ule  => [.compare 3 0, .setByte .ule, .extend false 8]
  | .ugt  => [.compare 3 0, .setByte .ugt, .extend false 8]
  | .uge  => [.compare 3 0, .setByte .uge, .extend false 8]

theorem decode_amd64EmitBinop :
    (emitBinopLines .amd64 op).mapM (decode .amd64) = some ((x86Alus op).map .alu) := by
  cases op <;> rfl

theorem decode_i386EmitBinop :
    (emitBinopLines .i386 op).mapM (decode .i386) = some ((x86Alus op).map .alu) := by
  cases op <;> rfl

variable {s s' : Core t}

theorem get_eq_regs (ht : t ≠ .riscv64) (m : Machine t) (r : Reg) : m.get r = m.regs r :=
  get_eq fun h => absurd h ht

theorem zeroExtend_truth (b : Bool) : zeroExtend 8 (truth t.bits b) = truth t.bits b := by
  cases t <;> cases b <;> rfl

theorem zeroExtend_setByte (x : Word t) (b : Bool) :
    zeroExtend 8 (x >>> 8 <<< 8 ||| truth t.bits b) = truth t.bits b := by
  have hx : (x >>> 8 <<< 8).setWidth 8 = 0#8 := by
    ext i hi
    simp [hi]
  rw [zeroExtend, BitVec.setWidth_or, hx, BitVec.zero_or]
  exact zeroExtend_truth b

theorem foldlM_move {alus : List Alu} {dst src : Reg} (h : alus.foldlM Alu.exec s = some s') :
    (alus ++ [Alu.move dst src]).foldlM Alu.exec s =
      some { s' with machine := s'.machine.set dst (s'.machine.get src) } := by
  rw [List.foldlM_append, h]
  rfl

theorem foldlM_divide (ht : t ≠ .riscv64) (hb : s.machine.regs 0 ≠ 0)
    (hd : ¬(s.machine.regs 3 = .intMin _ ∧ s.machine.regs 0 = -1)) :
    ∃ s', [.exchange 0 3, .signWide, .divWide true 3].foldlM Alu.exec s = some s' ∧
      s'.machine.regs 0 = BinOp.div.eval (s.machine.regs 3) (s.machine.regs 0) ∧
      s'.machine.regs 2 = BinOp.mod.eval (s.machine.regs 3) (s.machine.regs 0) := by
  have hg := get_eq_regs ht
  simp only [List.foldlM_cons, List.foldlM_nil, Alu.exec, Option.bind_eq_bind, Option.bind_some, hg,
    Machine.set, Function.update, Nat.reduceEqDiff, dite_false, dite_true, OfNat.ofNat_ne_zero, divideWide_signed hb hd]
  exact ⟨_, rfl, rfl, rfl⟩

theorem foldlM_udivide (ht : t ≠ .riscv64) (hb : s.machine.regs 0 ≠ 0) :
    ∃ s', [.exchange 0 3, .compute .xor 2 2 2, .divWide false 3].foldlM Alu.exec s = some s' ∧
      s'.machine.regs 0 = BinOp.udiv.eval (s.machine.regs 3) (s.machine.regs 0) ∧
      s'.machine.regs 2 = BinOp.umod.eval (s.machine.regs 3) (s.machine.regs 0) := by
  have hg := get_eq_regs ht
  simp only [List.foldlM_cons, List.foldlM_nil, Alu.exec, AluOp.eval, Option.bind_eq_bind, Option.bind_some, hg,
    Machine.set, Function.update, Nat.reduceEqDiff, dite_false, dite_true, OfNat.ofNat_ne_zero, BitVec.xor_self]
  rw [←BitVec.ofNat_eq_ofNat, divideWide_unsigned hb]
  exact ⟨_, rfl, rfl, rfl⟩

theorem foldlM_x86Alus (ht : t ≠ .riscv64) (hd : op.Defined (s.machine.regs 3) (s.machine.regs 0)) :
    ∃ s', (x86Alus op).foldlM Alu.exec s = some s' ∧
      s'.machine.regs 0 = op.eval (s.machine.regs 3) (s.machine.regs 0) := by
  have hg := get_eq_regs ht
  cases op
  case add | sub | and | or | xor | mul =>
    refine ⟨_, rfl, ?_⟩
    simp [Machine.set, hg, AluOp.eval, BinOp.eval, Function.update, BitVec.add_comm, BitVec.and_comm,
      BitVec.or_comm, BitVec.xor_comm, BitVec.ofInt_mul, BitVec.mul_comm]
  case shl | shr | sar =>
    refine ⟨_, rfl, ?_⟩
    simp [Machine.set, hg, AluOp.eval, BinOp.eval, Function.update, Nat.mod_eq_of_lt hd]
  case div =>
    obtain ⟨s', hs, hq, _⟩ := foldlM_divide ht hd.left hd.right
    exact ⟨s', hs, hq⟩
  case mod =>
    obtain ⟨s', hs, _, hm⟩ := foldlM_divide ht hd.left hd.right
    exact ⟨_, foldlM_move hs, (hg s'.machine 2).trans hm⟩
  case udiv =>
    obtain ⟨s', hs, hq, _⟩ := foldlM_udivide ht hd
    exact ⟨s', hs, hq⟩
  case umod =>
    obtain ⟨s', hs, _, hm⟩ := foldlM_udivide ht hd
    exact ⟨_, foldlM_move hs, (hg s'.machine 2).trans hm⟩
  all_goals
    refine ⟨_, rfl, ?_⟩
    simp only [Machine.set, hg, Function.update_self, Flags.satisfy_ofSub]
    exact zeroExtend_setByte ..

theorem leaves_x86 (ht : t ≠ .riscv64) (hs : t.scratch = 3) (ha : t.acc = 0)
    (hc : (emitBinopLines t op).mapM (decode t) = some ((x86Alus op).map .alu))
    (hd : op.Defined (s.machine.get t.scratch) (s.machine.get t.acc)) :
    Leaves labels s (emitBinopLines t op) (op.eval (s.machine.get t.scratch) (s.machine.get t.acc)) := by
  rw [hs, ha, get_eq_regs ht, get_eq_regs ht] at hd ⊢
  have ⟨s', h, hv⟩ := foldlM_x86Alus ht hd
  rw [←hv, ←get_eq_regs ht, ←ha]
  exact leaves_alus _ hc h

end X86

section AArch64

variable {s : Core .aarch64} {labels : String → Word .aarch64}

variable {code : List CodeLine} {alu : AluOp} {c : Condition}

theorem leaves_aarch64_compute (h : aluOp op = some alu) (hd : op.Defined (s.machine.get 1) (s.machine.get 0))
    (hc : code.mapM (decode .aarch64) = some [.alu <| .compute alu 0 1 0]) :
    Leaves labels s code (op.eval (s.machine.get 1) (s.machine.get 0)) := by
  have hl : Leaves labels s code _ := leaves_alus [.compute alu 0 1 0] hc rfl
  rwa [←aluOp_eval h hd]

-- The accumulator is set to one and a true condition skips the instruction that clears it.
theorem leaves_skip (h : op.condition = some c) (hc : code.mapM (decode .aarch64) =
      some [.alu <| .compare 1 0, .alu <| .const 0 1, .skip c, .alu <| .const 0 0]) :
    Leaves labels s code (op.eval (s.machine.get 1) (s.machine.get 0)) := by
  rw [eval_of_condition h, Leaves, runLines_eq hc, runSteps_alu]
  simp only [Alu.exec, Option.bind_some, runSteps_alu, runSteps_skip, Flags.satisfy_ofSub]
  cases c.holds (s.machine.get 1) (s.machine.get 0)
  case false =>
    simp only [Bool.false_eq_true, if_false, runSteps_nil]
    exact ⟨_, rfl, rfl⟩
  case true =>
    simp only [if_true, runSteps_nil, skipStep, Option.bind_some]
    exact ⟨_, rfl, rfl⟩

-- The remainder is what the divisor times the quotient leaves of the dividend.
theorem leaves_mulSub (q : BinOp) (h : aluOp q = some alu) (hd : q.Defined (s.machine.get 1) (s.machine.get 0))
    (hm : ∀ a b : Word .aarch64, a - b * q.eval a b = op.eval a b)
    (hc : code.mapM (decode .aarch64) = some [.alu <| .compute alu 2 1 0, .alu <| .mulSub 0 0 2 1]) :
    Leaves labels s code (op.eval (s.machine.get 1) (s.machine.get 0)) := by
  have hl : Leaves labels s code _ := leaves_alus [.compute alu 2 1 0, .mulSub 0 0 2 1] hc rfl
  rw [←hm, ←aluOp_eval h hd]
  exact hl

theorem leaves_aarch64 (hd : op.Defined (s.machine.get 1) (s.machine.get 0)) :
    Leaves labels s (emitBinopLines .aarch64 op) (op.eval (s.machine.get 1) (s.machine.get 0)) := by
  cases op
  case mod  => exact leaves_mulSub .div rfl hd (fun _ _ => sub_mul_div) rfl
  case umod => exact leaves_mulSub .udiv rfl hd (fun _ _ => sub_mul_udiv) rfl
  case eq | ne | lt | le | gt | ge | ult | ule | ugt | uge => exact leaves_skip rfl rfl
  all_goals exact leaves_aarch64_compute rfl hd rfl

end AArch64

section RiscV64

variable {s : Core .riscv64} {labels : String → Word .riscv64}

variable {code : List CodeLine} {alu : AluOp} {c : Condition} {a b : Word .riscv64}

theorem leaves_riscv64_compute (h : aluOp op = some alu)
    (hd : op.Defined (s.machine.get 11) (s.machine.get 10))
    (hc : code.mapM (decode .riscv64) = some [.alu <| .compute alu 10 11 10]) :
    Leaves labels s code (op.eval (s.machine.get 11) (s.machine.get 10)) := by
  have hl : Leaves labels s code _ := leaves_alus [.compute alu 10 11 10] hc rfl
  rwa [←aluOp_eval h hd]

-- The condition that an instruction computes from its operands.
def lessCondition (signed : Bool) : Condition :=
  if signed then .lt else .ult

theorem less_eval (signed : Bool) :
    (AluOp.less signed).eval .riscv64 a b = truth _ ((lessCondition signed).holds a b) := by
  cases signed <;> simp [AluOp.eval, lessCondition, Condition.holds, truth]

theorem xor_truth (b : Bool) : AluOp.xor.eval .riscv64 (truth _ b) (.ofInt _ 1) = truth _ !b := by
  cases b <;> rfl

theorem toNat_xor_eq_zero : (a ^^^ b).toNat = 0 ↔ a = b := by
  rw [←BitVec.xor_eq_zero_iff, ←BitVec.toNat_inj]
  rfl

theorem xor_less_one :
    (AluOp.less false).eval .riscv64 (a ^^^ b) (.ofInt _ 1) = truth _ (Condition.eq.holds a b) := by
  have h : (a ^^^ b).toNat < 1 ↔ a = b := Nat.lt_one_iff.trans toNat_xor_eq_zero
  simp only [AluOp.eval, Condition.holds, truth, decide_eq_true_eq, ←h]
  rfl

theorem zero_less_xor :
    (AluOp.less false).eval .riscv64 0 (a ^^^ b) = truth _ (Condition.ne.holds a b) := by
  have h : 0 < (a ^^^ b).toNat ↔ a ≠ b := Nat.pos_iff_ne_zero.trans <| not_congr toNat_xor_eq_zero
  simp only [AluOp.eval, Condition.holds, truth, decide_eq_true_eq, ←h]
  rfl

variable (signed : Bool)

theorem leaves_greater (h : op.condition = some (lessCondition signed).swap)
    (hc : code.mapM (decode .riscv64) = some [.alu <| .compute (.less signed) 10 10 11]) :
    Leaves labels s code (op.eval (s.machine.get 11) (s.machine.get 10)) := by
  have hl : Leaves labels s code _ := leaves_alus [.compute (.less signed) 10 10 11] hc rfl
  rw [eval_of_condition h, Condition.holds_swap, ←less_eval]
  exact hl

theorem leaves_not_less (h : op.condition = some (lessCondition signed).negate)
    (hc : code.mapM (decode .riscv64) =
      some [.alu <| .compute (.less signed) 10 11 10, .alu <| .immediate .xor 10 10 1]) :
    Leaves labels s code (op.eval (s.machine.get 11) (s.machine.get 10)) := by
  have hl : Leaves labels s code _ :=
    leaves_alus [.compute (.less signed) 10 11 10, .immediate .xor 10 10 1] hc rfl
  rw [eval_of_condition h, Condition.holds_negate, ←xor_truth, ←less_eval]
  exact hl

theorem leaves_not_greater (h : op.condition = some (lessCondition signed).negate.swap)
    (hc : code.mapM (decode .riscv64) =
      some [.alu <| .compute (.less signed) 10 10 11, .alu <| .immediate .xor 10 10 1]) :
    Leaves labels s code (op.eval (s.machine.get 11) (s.machine.get 10)) := by
  have hl : Leaves labels s code _ :=
    leaves_alus [.compute (.less signed) 10 10 11, .immediate .xor 10 10 1] hc rfl
  rw [eval_of_condition h, Condition.holds_swap, Condition.holds_negate, ←xor_truth, ←less_eval]
  exact hl

theorem leaves_riscv64 (hd : op.Defined (s.machine.get 11) (s.machine.get 10)) :
    Leaves labels s (emitBinopLines .riscv64 op) (op.eval (s.machine.get 11) (s.machine.get 10)) := by
  cases op
  case gt  => exact leaves_greater true rfl rfl
  case ugt => exact leaves_greater false rfl rfl
  case ge  => exact leaves_not_less true rfl rfl
  case uge => exact leaves_not_less false rfl rfl
  case le  => exact leaves_not_greater true rfl rfl
  case ule => exact leaves_not_greater false rfl rfl
  case eq =>
    have hl : Leaves labels s (emitBinopLines .riscv64 .eq) _ :=
      leaves_alus [.compute .xor 10 11 10, .immediate (.less false) 10 10 1] rfl rfl
    rw [eval_of_condition rfl, ←xor_less_one]
    exact hl
  case ne =>
    have hl : Leaves labels s (emitBinopLines .riscv64 .ne) _ :=
      leaves_alus [.compute .xor 10 11 10, .compute (.less false) 10 0 10] rfl rfl
    rw [eval_of_condition rfl, ←zero_less_xor]
    exact hl
  all_goals exact leaves_riscv64_compute rfl hd rfl

end RiscV64

section Sequences

variable {s s' : Core t} {code code₁ code₂ : List CodeLine} {v u : Word t}

theorem leaves_binop (hd : op.Defined (s.machine.get t.scratch) (s.machine.get t.acc)) :
    Leaves labels s (emitBinopLines t op) (op.eval (s.machine.get t.scratch) (s.machine.get t.acc)) := by
  cases t
  case amd64   => exact leaves_x86 nofun rfl rfl decode_amd64EmitBinop hd
  case i386    => exact leaves_x86 nofun rfl rfl decode_i386EmitBinop hd
  case aarch64 => exact leaves_aarch64 hd
  case riscv64 => exact leaves_riscv64 hd

theorem Leaves.nil : Leaves labels s [] (s.machine.get t.acc) :=
  ⟨s, runLines_eq rfl |>.trans runSteps_nil, rfl⟩

theorem Leaves.append (h₁ : Leaves labels s code₁ v)
    (h₂ : ∀ s' : Core t, s'.machine.get t.acc = v → Leaves labels s' code₂ u) :
    Leaves labels s (code₁ ++ code₂) u := by
  have ⟨s₁, hr, hv⟩ := h₁
  have ⟨s₂, hr', hu⟩ := h₂ s₁ hv
  exact ⟨s₂, (runLines_append hr).trans hr', hu⟩

theorem writable_scratch : Writable t t.scratch := by
  rintro rfl
  decide

theorem scratch_ne_acc : t.scratch ≠ t.acc := by
  cases t <;> decide

theorem not_scratch_scratch : ¬Scratch t t.scratch := by
  cases t <;> simp [Scratch, Helper, Target.acc, Target.scratch]

theorem runLines_emitCopyAccToScratch : runLines labels s (emitCopyAccToScratch t) =
    some (.falls { s with machine := s.machine.set t.scratch (s.machine.get t.acc) }) := by
  have h : (emitCopyAccToScratch t).mapM (decode t) = some ([.move t.scratch t.acc].map .alu) := by
    cases t <;> rfl
  rw [runLines_eq h]
  exact runSteps_alus rfl

theorem plain_emitLoadImmediate (value : Int) : ∀ insn ∈ emitLoadImmediate t value, Plain insn := by
  have hl (dst base : Reg) (imm : Int) : ∀ insn ∈ riscv64EmitAddImmReg.loop dst base imm, Plain insn := by
    fun_induction riscv64EmitAddImmReg.loop
    case case1 hi | case2 hi => exact List.forall_mem_cons.mpr ⟨trivial, hi⟩
    case case3               => exact List.forall_mem_singleton.mpr trivial
  cases t
  case riscv64 =>
    simp only [emitLoadImmediate, riscv64EmitLoadImmediate, riscv64EmitAddImmReg, riscv64EmitMovReg,
      riscv64EmitLoadLiteral]
    split
    case isTrue =>
      split
      case isTrue => simp [Plain]
      case isFalse => exact hl _ _ _
    case isFalse => simp [Plain]
  all_goals exact List.forall_mem_singleton.mpr trivial

theorem leaves_binopImmediate (value : Int) (hd : op.Defined (s.machine.get t.acc) (.ofInt _ value)) :
    Leaves labels s (emitBinopImmediate t op value) (op.eval (s.machine.get t.acc) (.ofInt _ value)) := by
  let m := s.machine.set t.scratch (s.machine.get t.acc)
  let m₁ := m.run labels (emitLoadImmediate t value)
  have hl : Loads labels m (emitLoadImmediate t value) _ := loads_immediate
  have ⟨flags, hr⟩ : ∃ flags, runLines labels ⟨m, s.flags⟩ _ = some (.falls ⟨m₁, flags⟩) :=
    runLines_insns <| plain_emitLoadImmediate value
  have hs : m₁.get t.scratch = s.machine.get t.acc :=
    (hl.keeps.regs _ not_scratch_scratch).trans <| get_set writable_scratch
  have hb : op.Defined (m₁.get t.scratch) (m₁.get t.acc) →
      Leaves labels ⟨m₁, flags⟩ (emitBinopLines t op) (op.eval (m₁.get t.scratch) (m₁.get t.acc)) :=
    leaves_binop (s := ⟨m₁, flags⟩)
  rw [hs, hl.acc] at hb
  have ⟨s', h, hv⟩ := hb hd
  rw [emitBinopImmediate, List.append_assoc]
  exact ⟨s', (runLines_append runLines_emitCopyAccToScratch).trans <| (runLines_append hr).trans h, hv⟩

theorem Leaves.binopImmediate (op : BinOp) (value : Int) (h : Leaves labels s code v)
    (hd : op.Defined v (.ofInt _ value)) :
    Leaves labels s (code ++ emitBinopImmediate t op value) (op.eval v (.ofInt _ value)) :=
  h.append fun _ hv => hv ▸ leaves_binopImmediate value (hv ▸ hd)

end Sequences

section Extensions

variable {s : Core t} {size : Nat}

theorem leaves_mask (hs : size = 1 ∨ size = 2 ∨ size = 4) (hw : size ≤ t.wordBytes) :
    Leaves labels s (emitMask t size) (zextBytes size (s.machine.get t.acc)) := by
  have hn : 8 * size ≤ t.bits := Nat.mul_le_mul_left 8 hw
  have hm : BitVec.ofInt t.bits (maskForSize size) = .ofNat _ (2 ^ (8 * size) - 1) := by
    rcases hs with rfl | rfl | rfl <;> exact BitVec.ofInt_natCast ..
  rw [zextBytes, ←and_mask hn, ←hm]
  exact leaves_binopImmediate _ trivial

theorem leaves_maskSext (hs : size = 1 ∨ size = 2 ∨ size = 4) (hw : size ≤ t.wordBytes) :
    Leaves labels s (emitMaskSext t size) (sextBytes size (s.machine.get t.acc)) := by
  let x := s.machine.get t.acc
  have hx : (zextBytes size x ^^^ .ofInt _ (signBitForSize size)) - .ofInt _ (signBitForSize size) =
      sextBytes size x := by
    have hn : 8 * size ≤ t.bits := Nat.mul_le_mul_left 8 hw
    have hb : BitVec.ofInt t.bits (signBitForSize size) = .twoPow _ (8 * size - 1) := by
      rw [twoPow_eq_ofNat]
      rcases hs with rfl | rfl | rfl <;> exact BitVec.ofInt_natCast ..
    have he : 8 * size - 1 + 1 = 8 * size := by omega
    have := xor_sub_signBit (x := x) (n := 8 * size - 1) (by omega)
    rwa [he, ←hb] at this
  have hm : Leaves labels s (emitMask t size) (zextBytes size x) := leaves_mask hs hw
  have h := (hm.binopImmediate .xor (signBitForSize size) trivial).binopImmediate .sub
    (signBitForSize size) trivial
  exact hx ▸ h

theorem leaves_extend (signed : Bool) (bits : Nat) {code : List CodeLine} (ha : t.acc = 0) (hr : t ≠ .riscv64)
    (hc : code.mapM (decode t) = some [.alu <| .extend signed bits]) :
    Leaves labels s code
      (if signed then signExtend bits (s.machine.get t.acc) else zeroExtend bits (s.machine.get t.acc)) := by
  have hl : Leaves labels s code _ := leaves_alus [.extend signed bits] hc rfl
  rw [ha, get_set fun h => absurd h hr] at hl
  rwa [ha]

theorem zextBytes_word (h : 8 * size = t.bits) (x : Word t) : zextBytes size x = x := by
  rw [zextBytes, h, zeroExtend, BitVec.setWidth_eq, BitVec.setWidth_eq]

theorem sextBytes_word (h : 8 * size = t.bits) (x : Word t) : sextBytes size x = x := by
  rw [sextBytes, h, signExtend, BitVec.setWidth_eq, BitVec.signExtend_eq]

theorem leaves_zext (hs : size = 1 ∨ size = 2 ∨ size = 4) :
    Leaves labels s (emitZextLoadedAcc t size) (zextBytes size (s.machine.get t.acc)) := by
  cases t
  case amd64   => rcases hs with rfl | rfl | rfl <;> exact leaves_extend false _ rfl nofun rfl
  case riscv64 => rcases hs with rfl | rfl | rfl <;> exact leaves_mask (by decide) (by decide)
  case i386    =>
    rcases hs with rfl | rfl | rfl
    case inr.inr => exact (zextBytes_word rfl _).symm ▸ Leaves.nil
    all_goals exact leaves_mask (by decide) (by decide)
  case aarch64 =>
    rcases hs with rfl | rfl | rfl
    case inr.inr => exact leaves_extend false 32 rfl nofun rfl
    all_goals exact leaves_mask (by decide) (by decide)

theorem leaves_sext (hs : size = 1 ∨ size = 2 ∨ size = 4) :
    Leaves labels s (emitSextLoadedAcc t size) (sextBytes size (s.machine.get t.acc)) := by
  cases t
  case amd64   => rcases hs with rfl | rfl | rfl <;> exact leaves_extend true _ rfl nofun rfl
  case riscv64 => rcases hs with rfl | rfl | rfl <;> exact leaves_maskSext (by decide) (by decide)
  case i386    =>
    rcases hs with rfl | rfl | rfl
    case inr.inr => exact (sextBytes_word rfl _).symm ▸ Leaves.nil
    all_goals exact leaves_maskSext (by decide) (by decide)
  case aarch64 =>
    rcases hs with rfl | rfl | rfl
    case inr.inr => exact leaves_extend true 32 rfl nofun rfl
    all_goals exact leaves_maskSext (by decide) (by decide)

end Extensions

section Branches

variable {s : Core t} {c : Condition} {skip target : String}

theorem condition_invertComparison (h : op.condition = some c) :
    ∃ op', invertComparison op = .ok op' ∧ op'.condition = some c.negate := by
  cases op
  all_goals
    cases h
    try exact ⟨_, rfl, rfl⟩

-- The code jumps to the target exactly if the condition holds for the operands.
def JumpsIf (labels : String → Word t) (s : Core t) (code : List CodeLine) (target : String) (b : Bool) : Prop :=
  ∃ s', runLines labels s code = some (if b then .jumps (labels target) s' else .falls s')

theorem jumpsIf_x86 (hs : t.scratch = 3) (ha : t.acc = 0) {code : List CodeLine} (hc : code.mapM (decode t) =
      some [.alu <| .compare 3 0, .jump (some c) target]) :
    JumpsIf labels s code target (c.holds (s.machine.get t.scratch) (s.machine.get t.acc)) := by
  rw [JumpsIf, runLines_eq hc, runSteps_alu, hs, ha]
  simp only [Alu.exec, Option.bind_some, runSteps_jump_some, Flags.satisfy_ofSub, runSteps_nil]
  cases c.holds (s.machine.get 3) (s.machine.get 0) <;> exact ⟨_, rfl⟩

-- The jump is skipped if the inverted condition holds.
theorem jumpsIf_aarch64 {s : Core .aarch64} {labels : String → Word .aarch64} {code : List CodeLine}
    (hc : code.mapM (decode .aarch64) =
      some [.alu <| .compare 1 0, .insn <| .label 16 target, .skip c.negate, .jumpTo 16]) :
    JumpsIf labels s code target (c.holds (s.machine.get 1) (s.machine.get 0)) := by
  rw [JumpsIf, runLines_eq hc, runSteps_alu]
  simp only [Alu.exec, Option.bind_some, runSteps_insn, keepsFlags, if_true, runSteps_skip, Flags.satisfy_ofSub,
    Condition.holds_negate, runSteps_jumpTo, skipStep, runSteps_nil]
  cases c.holds (s.machine.get 1) (s.machine.get 0) <;> exact ⟨_, rfl⟩

theorem jumpsIf_riscv64 {s : Core .riscv64} {labels : String → Word .riscv64} {code : List CodeLine} {a b : Reg}
    (hc : code.mapM (decode .riscv64) =
      some [.branch c a b skip, .insn <| .label 7 target, .jumpTo 7, .mark skip]) :
    JumpsIf labels s code target (!c.holds (s.machine.get a) (s.machine.get b)) := by
  rw [JumpsIf, runLines_eq hc, runSteps_branch]
  cases c.holds (s.machine.get a) (s.machine.get b)
  case true =>
    simp
  case false =>
    simp only [Bool.false_eq_true, if_false, runSteps_insn, runSteps_jumpTo]
    exact ⟨_, rfl⟩

theorem jumpsIf_branch {s : Core .riscv64} {labels : String → Word .riscv64} {code : List CodeLine}
    (hc : code.mapM (decode .riscv64) =
      some [.branch c.negate 11 10 skip, .insn <| .label 7 target, .jumpTo 7, .mark skip]) :
    JumpsIf labels s code target (c.holds (s.machine.get 11) (s.machine.get 10)) := by
  have h : JumpsIf labels s code target _ := jumpsIf_riscv64 hc
  rwa [Condition.holds_negate, Bool.not_not] at h

theorem jumpsIf_branch_swap {s : Core .riscv64} {labels : String → Word .riscv64} {code : List CodeLine}
    (hc : code.mapM (decode .riscv64) =
      some [.branch c.negate.swap 10 11 skip, .insn <| .label 7 target, .jumpTo 7, .mark skip]) :
    JumpsIf labels s code target (c.holds (s.machine.get 11) (s.machine.get 10)) := by
  have h : JumpsIf labels s code target _ := jumpsIf_riscv64 hc
  rwa [Condition.holds_swap, Condition.holds_negate, Bool.not_not] at h

theorem emitCompareJump_spec (labels : String → Word t) (s : Core t) (skip target : String)
    (h : op.condition = some c) :
    ∃ code, emitCompareJumpLines t skip op target = .ok code ∧
      JumpsIf labels s (emitCompareLines t ++ code) target
        (c.holds (s.machine.get t.scratch) (s.machine.get t.acc)) := by
  cases t
  case amd64 | i386 =>
    cases op
    all_goals
      cases h
      try exact ⟨_, rfl, jumpsIf_x86 rfl rfl rfl⟩
  case aarch64 =>
    cases op
    all_goals
      cases h
      try exact ⟨_, rfl, jumpsIf_aarch64 rfl⟩
  case riscv64 =>
    cases op
    case le | gt | ule | ugt =>
      cases h
      exact ⟨_, rfl, jumpsIf_branch_swap rfl⟩
    all_goals
      cases h
      try exact ⟨_, rfl, jumpsIf_branch rfl⟩

theorem emitJumpNamed_spec (labels : String → Word t) (s : Core t) (target : String) :
    ∃ steps, (emitJumpNamed t target).mapM (decode t) = some steps ∧
      ∃ s', runSteps labels s steps = some (.jumps (labels target) s') := by
  cases t
  case amd64   => exact ⟨_, rfl, _, runSteps_jump⟩
  case i386    => exact ⟨_, rfl, _, runSteps_jump⟩
  case aarch64 => exact ⟨_, rfl, _, runSteps_insn.trans runSteps_jumpTo⟩
  case riscv64 => exact ⟨_, rfl, _, runSteps_insn.trans runSteps_jumpTo⟩

-- Where a comparison leads, given the block that follows. The inverted comparison is used for the first case.
def branchOutcome (labels : String → Word t) (fn : String) (yes no nextId : Int) (b : Bool) (s : Core t) :
    Outcome t :=
  if nextId = yes then (if b then .falls s else .jumps (labels <| blockRef fn no) s)
  else if b then .jumps (labels <| blockRef fn yes) s
  else if nextId = no then .falls s
  else .jumps (labels <| blockRef fn no) s

theorem emitCompareBranch_spec (h : op.condition = some c) (fn : String) (yes no nextId : Int) :
    ∃ code s', emitCompareBranchLines t skip fn op yes no nextId = .ok code ∧
      runLines labels s (emitCompareLines t ++ code) = some (branchOutcome labels fn yes no nextId
        (c.holds (s.machine.get t.scratch) (s.machine.get t.acc)) s') := by
  rw [emitCompareBranchLines]
  by_cases hy : nextId = yes
  case pos =>
    have ⟨op', hi, hc⟩ := condition_invertComparison h
    have ⟨code, he, s', hr⟩ := emitCompareJump_spec labels s skip (blockRef fn no) hc
    rw [hi, if_pos hy]
    refine ⟨code, s', he, hr.trans ?_⟩
    rw [branchOutcome, if_pos hy, Condition.holds_negate]
    cases c.holds (s.machine.get t.scratch) (s.machine.get t.acc) <;> rfl
  case neg =>
    have ⟨code, he, s', hr⟩ := emitCompareJump_spec labels s skip (blockRef fn yes) h
    rw [if_neg hy, he]
    simp only [branchOutcome, if_neg hy]
    by_cases hn : nextId = no
    case pos =>
      simp only [if_pos hn]
      exact ⟨code, s', rfl, hr⟩
    case neg =>
      simp only [if_neg hn]
      cases hc : c.holds (s.machine.get t.scratch) (s.machine.get t.acc)
      case true =>
        have ⟨steps, hs, _⟩ := emitJumpNamed_spec labels s' (blockRef fn no)
        rw [hc] at hr
        refine ⟨_, s', rfl, ?_⟩
        rw [←List.append_assoc]
        exact runLines_append_jumps hr hs
      case false =>
        have ⟨steps, hs, s'', hj⟩ := emitJumpNamed_spec labels s' (blockRef fn no)
        rw [hc] at hr
        refine ⟨_, s'', rfl, ?_⟩
        rw [←List.append_assoc, runLines_append hr, runLines_eq hs]
        exact hj

theorem truth_eq_one (b : Bool) : decide (truth t.bits b = 1) = b := by
  cases t <;> cases b <;> rfl

end Branches

-- The left operand is in the scratch register and the right operand or the value is in the accumulator.
theorem emits_arithmetic (t : Target) (labels : String → Word t) (s : Core t) :
    let left  := s.machine.get t.scratch
    let right := s.machine.get t.acc
    (∀ op : BinOp, op.Defined left right → Leaves labels s (emitBinopLines t op) (op.eval left right)) ∧
    (∀ size, size = 1 ∨ size = 2 ∨ size = 4 →
      Leaves labels s (emitZextLoadedAcc t size) (zextBytes size right) ∧
      Leaves labels s (emitSextLoadedAcc t size) (sextBytes size right)) ∧
    (∀ op : BinOp, op.Comparison → ∀ skip fn yes no nextId,
      ∃ code s', emitCompareBranchLines t skip fn op yes no nextId = .ok code ∧
        runLines labels s (emitCompareLines t ++ code) =
          some (branchOutcome labels fn yes no nextId (op.eval left right = 1) s')) := by
  refine ⟨fun _ => leaves_binop, fun _ hs => ⟨leaves_zext hs, leaves_sext hs⟩, ?_⟩
  intro op hc skip fn yes no nextId
  have ⟨c, h⟩ := Option.isSome_iff_exists.mp hc
  simp only [eval_of_condition h, truth_eq_one]
  exact emitCompareBranch_spec h fn yes no nextId

def exampleCore : Core .i386 where
  machine := ⟨fun r => if r = 3 then -7 else if r = 0 then 2 else 0, fun _ => 0⟩
  flags   := none

theorem emits_arithmetic_division :
    Leaves (fun _ => 0) exampleCore (emitBinopLines .i386 .div) (-3) ∧
    Leaves (fun _ => 0) exampleCore (emitSextLoadedAcc .i386 1) 2 ∧
    ∃ code s', emitCompareBranchLines .i386 "" "f" .lt 1 2 3 = .ok code ∧
      runLines (fun _ => 5) exampleCore (emitCompareLines .i386 ++ code) = some (.jumps 5 s') :=
  have h := emits_arithmetic .i386 (fun _ => 0) exampleCore
  have hb := emits_arithmetic .i386 (fun _ => 5) exampleCore
  ⟨h.left .div ⟨by decide, by decide⟩, (h.right.left 1 (.inl rfl)).right,
    hb.right.right .lt rfl _ _ _ _ _⟩

end Hcc.M1
