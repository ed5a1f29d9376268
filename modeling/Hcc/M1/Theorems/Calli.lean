import Hcc.M1.Theorems.Arguments

-- The callee of an indirect call.
namespace Hcc.M1

open Machine CInteger

variable {t : Target} {fr : Frame} {callee op prev : Operand} {args : List Operand}
         {state state' state₁ state₂ : EmitState} {result : Int} {code code₁ code₂ rest : List Insn} {i j k : Nat}

-- The address that is branched to.
def branchTarget (labels : String → Word t) (m : Machine t) (code : List Insn) : Option (Word t) :=
  (m.runToCall labels code).map fun (_, address, _) => address

-- The code for AArch64 needs another register for the address of a stack slot that is at least 4096
-- words from the stack pointer, which `pushed` words have been pushed to. A temp is not loaded if the
-- previously evaluated operand is the same temp, as it is still in the accumulator.
def FarLoad (locs : LocArray) (prev op : Operand) (pushed : Nat) : Prop :=
  ∃ loc, locs op.value = some loc ∧ loc.kind = .stack ∧ op.kind = OP_TEMP ∧
    4096 ≤ loc.slot + pushed ∧ ¬(pushed = 0 ∧ prev.kind = OP_TEMP ∧ prev.value = op.value)

-- The arguments are evaluated after the callee, from the last to the first.
def evaluatedBefore (callee : Operand) (args : List Operand) (k : Nat) : Operand :=
  if k + 1 < args.length then args.getD (k + 1) {} else callee

def pushedBefore (t : Target) (args : List Operand) (k : Nat) : Nat :=
  min (args.length - (k + 1)) (args.length - targetRegisterArgCount t)

def FarArgument (locs : LocArray) (callee : Operand) (args : List Operand) (k : Nat) : Prop :=
  FarLoad locs (evaluatedBefore callee args k) (args.getD k {}) (pushedBefore .aarch64 args k)

section AArch64

variable {labels : String → Word .aarch64} {value : Int → Word .aarch64} {base : Word .aarch64}
         {m m' : Machine .aarch64}

-- The temp in the accumulator is the one that has been evaluated last.
def Last (fr : Frame) (prev : Operand) (state : EmitState) : Prop :=
  ∀ temp loc, fr.locs temp = some loc → loc.kind = .stack →
    (state.raxTemp = temp ↔ prev.kind = OP_TEMP ∧ prev.value = temp)

theorem aarch64Encodable_word (h : 0 ≤ x) : aarch64Encodable 8 (8 * x) ↔ x < 4096 := by
  simp only [aarch64Encodable, aarch64Scale, if_true]
  omega

theorem run_loadStack_register (h : 0 ≤ x) :
    (m.run labels (emitLoadStack .aarch64 (8 * x))).get 16 =
      if x < 4096 then m.get 16 else wordAddress (m.get 18) x := by
  rw [emitLoadStack]
  split
  case isTrue hx =>
    rw [run_aarch64EmitLoadStore_encodable <| (aarch64Encodable_word h).mpr hx]
    exact get_set_of_ne <| by decide
  case isFalse hx =>
    rw [run_aarch64EmitLoadStore_far (fun he => hx <| (aarch64Encodable_word h).mp he) (by omega)]
    exact (get_set_of_ne <| by decide).trans <| get_set writable_aarch64

theorem run_addressStack_register (h : 0 ≤ x) :
    (m.run labels (emitAddressStack .aarch64 x)).get 16 = m.get 16 := by
  rw [emitAddressStack, run_aarch64EmitAddImmReg h]
  exact get_set_of_ne <| by decide

theorem loadOperand_other_register (hv : op.Valid) (hn : op.kind ≠ OP_TEMP)
    (he : emitLoadOperand .aarch64 locs bias op state = .ok (code, state')) :
    (m.run labels code).get 16 = m.get 16 := by
  simp only [Operand.Valid, List.mem_cons, List.not_mem_nil, hn, false_or, or_false] at hv
  rcases hv with hk | hk | hk | hk
  all_goals
    simp only [emitLoadOperand, hk, OP_IMM, OP_BYTES, OP_GLOBAL, OP_FUNC, Int.reduceEq, if_false,
      if_true] at he
    cases Except.ok.inj he
    exact get_set_of_ne <| by decide

theorem last_forget (h : ∀ loc, fr.locs op.value = some loc → loc.kind = .stack → op.kind ≠ OP_TEMP) :
    Last fr op (emitForgetRax state) := by
  refine fun temp loc ht hk => ⟨fun hr => ?_, fun ⟨ho, hv⟩ => ?_⟩
  case refine_1 => exact absurd (fr.nonneg ht) <| hr ▸ show ¬(0 : Int) ≤ -1 by decide
  case refine_2 => exact absurd ho <| h loc (hv ▸ ht) hk

theorem last_remember (hk : op.kind = OP_TEMP) (h : state.raxTemp = op.value) : Last fr op state :=
  fun _ _ _ _ => ⟨fun hr => ⟨hk, h.symm.trans hr⟩, fun hv => h.trans hv.right⟩

theorem loadOperand_last (hv : op.Valid)
    (he : emitLoadOperand .aarch64 fr.locs (8 * j) op state = .ok (code, state')) (hj : j = 0) :
    Last fr op state' := by
  by_cases hn : op.kind = OP_TEMP
  case pos =>
    have ⟨loc, hl, he⟩ := emitLoadOperand_temp hn he
    split at he
    case isTrue hd => exact he.right ▸ last_remember hn hd.right
    case isFalse =>
      rw [he.right]
      split
      case isTrue => exact last_remember hn rfl
      case isFalse hd =>
        refine last_forget fun loc' hl' hk => absurd ?_ hd
        cases hl.symm.trans hl'
        exact ⟨by simp [hj], hk⟩
  case neg =>
    have zero : Machine .aarch64 := ⟨fun _ => 0, fun _ => 0⟩
    have ⟨_, _, hs⟩ : Loads (fun _ => 0) zero _ (operandValue _ (fun _ => 0) _) ∧ _ :=
      emitLoadOperand_other hv hn he
    exact hs ▸ last_forget fun _ _ _ => hn

theorem loadOperand_register (labels : String → Word .aarch64) (hv : op.Valid) (hl : j = 0 → Last fr prev state)
    (he : emitLoadOperand .aarch64 fr.locs (8 * j) op state = .ok (code, state'))
    (hsp : m.get 18 = wordAddress base (-j)) (hb : 8 * (fr.totalSlots + j) < 2 ^ 31) :
    (¬FarLoad fr.locs prev op j ∧ (m.run labels code).get 16 = m.get 16) ∨
      (FarLoad fr.locs prev op j ∧ ∃ loc, fr.locs op.value = some loc ∧
        (m.run labels code).get 16 = wordAddress base loc.slot) := by
  by_cases hn : op.kind = OP_TEMP
  case neg =>
    refine .inl ⟨?_, loadOperand_other_register hv hn he⟩
    rintro ⟨_, _, _, hk, _⟩
    exact hn hk
  case pos =>
    obtain ⟨loc, ht, he⟩ := emitLoadOperand_temp hn he
    obtain ⟨hs₁, _, hs₂⟩ := fr.bounds ht
    split at he
    case isTrue hd =>
      rw [he.left]
      have hj : j = 0 := by simpa using hd.left.left
      refine .inl ⟨?_, rfl⟩
      rintro ⟨_, _, _, _, _, hp⟩
      refine hp ⟨hj, ?_⟩
      exact (hl hj _ _ ht hd.left.right).mp hd.right
    case isFalse hd =>
      have ho : IntType.int.wrap (Target.wordBytes .aarch64 * loc.slot + 8 * j) = 8 * (loc.slot + j) :=
        offset_eq (t := .aarch64) hs₁ (Int.natCast_nonneg j) (by simp [Target.wordBytes]; omega)
      simp only [he.left, emitLoadLocation, ho]
      cases hk : loc.kind
      case object =>
        refine .inl ⟨?_, run_addressStack_register (by omega)⟩
        rintro ⟨_, hl, hs, _⟩
        cases ht.symm.trans hl
        rw [hk] at hs
        contradiction
      case stack =>
        simp only
        rw [run_loadStack_register (by omega), hsp, wordAddress_add]
        split
        case isTrue hf =>
          refine .inl ⟨?_, rfl⟩
          rintro ⟨_, hl, _, _, hs, _⟩
          cases ht.symm.trans hl
          omega
        case isFalse hf =>
          refine .inr ⟨⟨loc, ht, hk, hn, by omega, ?_⟩, loc, ht, ?_⟩
          case refine_1 =>
            rintro ⟨hj, hp⟩
            exact hd ⟨⟨by simp [hj], hk⟩, (hl hj _ _ ht hk).mpr hp⟩
          case refine_2 =>
            congr 1
            omega

-- The register of the callee after the evaluation of the arguments from an index on.
def CalleeRegister (fr : Frame) (callee : Operand) (args : List Operand) (base v : Word .aarch64)
    (m : Machine .aarch64) (i : Nat) : Prop :=
  ((∀ k, i ≤ k → k < args.length → ¬FarArgument fr.locs callee args k) ∧ m.get 16 = v) ∨
    ∃ k loc, i ≤ k ∧ k < args.length ∧ FarArgument fr.locs callee args k ∧
      fr.locs (args.getD k {}).value = some loc ∧ m.get 16 = wordAddress base loc.slot

def Tracked (fr : Frame) (callee : Operand) (args : List Operand) (base v : Word .aarch64)
    (remaining : Nat) (state : EmitState) (m : Machine .aarch64) : Prop :=
  CalleeRegister fr callee args base v m remaining ∧
    ∀ i, remaining = i + 1 → pushedBefore .aarch64 args i = 0 →
      Last fr (evaluatedBefore callee args i) state

theorem Tracked.step (h : Tracked fr callee args base v (i + 1) state m) (hf : Fits .aarch64 fr args.length)
    (hv : ∀ op ∈ args, op.Valid) (hi : i < args.length)
    (hsp : m.get 18 = wordAddress base (-pushedBefore .aarch64 args i))
    (he : emitLoadOperand .aarch64 fr.locs (8 * (pushedBefore .aarch64 args i : Int)) (args.getD i {})
      state = .ok (code, state'))
    (hm : m'.get 16 = (m.run labels code).get 16) :
    Tracked fr callee args base v i state' m' := by
  have hop : (args.getD i {}).Valid := hv _ <| getD_mem hi
  have hb : 8 * (fr.totalSlots + pushedBefore .aarch64 args i) < 2 ^ 31 := by
    have : pushedBefore .aarch64 args i ≤ args.length - targetRegisterArgCount .aarch64 :=
      Nat.min_le_right ..
    simp only [Fits, Target.wordBytes] at hf
    omega
  refine ⟨?register, ?last⟩
  case register =>
    rcases loadOperand_register labels hop (h.right i rfl) he hsp hb with
      ⟨hn, hr⟩ | ⟨hf, loc, hl, hr⟩
    case inr => exact .inr ⟨i, loc, Nat.le_refl _, hi, hf, hl, hm.trans hr⟩
    case inl =>
      rcases h.left with ⟨ha, hv⟩ | ⟨k, loc, hk, hn', hf, hl, hv⟩
      case inr => exact .inr ⟨k, loc, Nat.le_of_lt hk, hn', hf, hl, hm.trans <| hr.trans hv⟩
      case inl =>
        refine .inl ⟨fun k hk hn' => ?_, hm.trans <| hr.trans hv⟩
        cases Nat.eq_or_lt_of_le hk
        case inl he => exact he ▸ hn
        case inr hl => exact ha k hl hn'
  case last =>
    rintro i rfl hz
    rw [evaluatedBefore, if_pos hi]
    refine loadOperand_last hop he ?_
    simp only [pushedBefore, targetRegisterArgCount] at hz ⊢
    omega

theorem registerOrder_index (h : registerOrder .aarch64 argc = done ++ i :: indices) :
    i = indices.length ∧ i < argc ∧ i < 8 := by
  have hr : List.range (min argc 8) = indices.reverse ++ i :: done.reverse := by
    simpa [registerOrder, targetRegisterArgCount] using congrArg List.reverse h
  have hi := congrArg (·[indices.length]?) hr
  have hl : indices.length < min argc 8 := by
    have := congrArg List.length hr
    simp at this
    omega
  simp [List.getElem?_range hl] at hi
  omega

theorem pushPreserves_tracked (hf : Fits .aarch64 fr args.length) (hv : ∀ op ∈ args, op.Valid) :
    PushPreserves labels base fr args (Tracked fr callee args base v) := by
  intro i state m code state' hr hi hsp h he
  have hj : (args.length - (i + 1 : Nat) : Int) = pushedBefore .aarch64 args i := by
    simp only [pushedBefore, targetRegisterArgCount] at hr ⊢
    omega
  rw [hj] at hsp he
  have hm : (m.run labels (code ++ emitPush .aarch64)).get 16 = (m.run labels code).get 16 := by
    rw [run_append, run_push, get_set_of_ne (by decide), get_storeWord]
  exact h.step hf hv hi hsp he hm

theorem movePreserves_tracked (hf : Fits .aarch64 fr args.length) (hv : ∀ op ∈ args, op.Valid) :
    MovePreserves labels base fr args (Tracked fr callee args base v) := by
  intro done i indices state m code₁ code₂ state' ho hsp h he hm
  have ⟨hi, hn, hr⟩ := registerOrder_index ho
  have hj : args.length - targetRegisterArgCount .aarch64 = pushedBefore .aarch64 args i := by
    simp only [pushedBefore, targetRegisterArgCount]
    omega
  rw [hj] at hsp he
  rw [←hi] at h ⊢
  have hm : (m.run labels (code₁ ++ code₂)).get 16 = (m.run labels code₁).get 16 := by
    rw [run_append, run_argumentMove hr hm]
    exact get_set_of_ne <| Nat.ne_of_gt <| Nat.lt_trans hr <| by decide
  exact h.step hf hv hn hsp he hm

end AArch64

section Calls

variable {labels : String → Word t} {value : Int → Word t} {base : Word t} {m m' : Machine t}

theorem branchTarget_callReg (h : CallFree code) :
    branchTarget labels m (code ++ .callReg r :: rest) = some ((m.run labels code).get r) := by
  rw [branchTarget, runToCall_append h]
  rfl

-- The callee is evaluated after the arguments.
theorem branchTarget_late (hf : Fits t fr args.length) (hv : ∀ op ∈ args, op.Valid) (hcv : callee.Valid)
    (h : Holding fr m args state value) (hc : InFrame fr m (m.get t.sp) value callee)
    (h₁ : emitArguments t fr.locs args state = .ok (code₁, state₁))
    (h₂ : emitLoadOperand t fr.locs (IntType.int.wrap (callStackBytes t args.length)) callee state₁ =
      .ok (code₂, state₂)) :
    branchTarget labels m (code₁ ++ code₂ ++ .callReg t.acc :: rest) =
      some (operandValue labels value callee) := by
  have ⟨hm, hc', hf₁⟩ : Delivered labels _ _ _ _ _ _ ∧ _ := arguments_delivered hf hv h h₁
  rw [callStackBytes_eq, hf.bias_eq (Int.natCast_nonneg _) (Int.le_refl _)] at h₂
  have ha : Available fr (m.run labels code₁) (m.get t.sp)
      (args.length - targetRegisterArgCount t : Nat) value state₁ callee :=
    fun hk _ hl => .inl <| holds_of_frame hm.frame hl <| hc hk _ hl
  have ⟨hl, _⟩ : Loads labels _ code₂ _ ∧ _ :=
    loads_loadOperand hm.sp (Int.natCast_nonneg _) hf hcv ha hc' h₂
  rw [branchTarget_callReg <| callFree_append.mpr ⟨hf₁, callFree_loadOperand hcv h₂⟩, run_append, hl.acc]

theorem Holding.inFrame (h : Holding fr m args state value) (ht : t ≠ .amd64) :
    InFrame fr m (m.get t.sp) value op :=
  fun _ _ hl => (h.slots _ _ hl).resolve_right fun ⟨_, he⟩ => ht he.amd64.left

-- The callee is evaluated first, and is kept in another register.
theorem load_callee (labels : String → Word t) (ht : t ≠ .amd64) (hr : Writable t r) (hra : r ≠ t.acc) (hrs : r ≠ t.sp)
    (hf : Fits t fr args.length) (hcv : callee.Valid) (h : Holding fr m args state value)
    (he : emitLoadOperand t fr.locs 0 callee state = .ok (code, state')) :
    let m' := (m.run labels code).set r ((m.run labels code).get t.acc)
    m'.get r = operandValue labels value callee ∧ m'.get t.sp = m.get t.sp ∧
      Holding fr m' args state' value := by
  have hz : (0 : Int) = t.wordBytes * (0 : Nat) := by simp
  have hsp : m.get t.sp = wordAddress (m.get t.sp) (-(0 : Nat)) := by simp
  have ha : Available fr m (m.get t.sp) (0 : Nat) value state callee :=
    fun hk _ hl => .inl <| h.inFrame ht hk _ hl
  rw [hz] at he
  have ⟨hl, hc⟩ : Loads labels _ code _ ∧ _ :=
    loads_loadOperand hsp (Int.natCast_nonneg _) (hf.mono (by omega)) hcv ha h.cached he
  have hsp : (m.run labels code).get t.sp = m.get t.sp := hl.keeps.regs _ not_scratch_sp
  refine ⟨(get_set hr).trans hl.acc, (get_set_of_ne hrs.symm).trans hsp, ?_, fun temp loc hl' => ?_⟩
  case refine_1 => exact hc.congr <| get_set_of_ne hra.symm
  case refine_2 =>
    have hh := (h.slots temp loc hl').resolve_right fun ⟨_, he⟩ => ht he.amd64.left
    rw [get_set_of_ne hrs.symm, hsp]
    exact .inl <| (holds_congr hl.keeps.mem).mpr hh

theorem emitCalliBranch_late (ht : t = .amd64 ∨ t = .i386) (hf : Fits t fr args.length)
    (hv : ∀ op ∈ args, op.Valid) (hcv : callee.Valid) (h : Holding fr m args state value)
    (hc : InFrame fr m (m.get t.sp) value callee)
    (he : emitCalliBranch t fr.locs callee args state = .ok (code, state')) :
    branchTarget labels m (code ++ rest) = some (operandValue labels value callee) := by
  rcases ht with rfl | rfl
  all_goals
    have ⟨⟨code₁, state₁⟩, h₁, he⟩ := Except.bind_eq_ok.mp he
    have ⟨⟨code₂, state₂⟩, h₂, he⟩ := Except.bind_eq_ok.mp he
    cases Except.ok.inj he
    rw [List.append_assoc (code₁ ++ code₂)]
    exact branchTarget_late hf hv hcv h hc h₁ h₂

theorem emitCalliBranch_riscv64 {labels : String → Word .riscv64} {value : Int → Word .riscv64}
    {m : Machine .riscv64}
    (hf : Fits .riscv64 fr args.length) (hv : ∀ op ∈ args, op.Valid) (hcv : callee.Valid)
    (h : Holding fr m args state value)
    (he : emitCalliBranch .riscv64 fr.locs callee args state = .ok (code, state')) :
    branchTarget labels m (code ++ rest) = some (operandValue labels value callee) := by
  have ⟨⟨code₁, state₁⟩, h₁, he⟩ := Except.bind_eq_ok.mp he
  have ⟨⟨code₂, state₂⟩, h₂, he⟩ := Except.bind_eq_ok.mp he
  cases Except.ok.inj he
  have ⟨hr, _, hm⟩ := load_callee (r := 7) labels (by decide)
    (writable_riscv64 <| by decide) (by decide) (by decide) hf hcv h h₁
  have ⟨hd, _, hf'⟩ : Delivered labels _ _ _ _ _ _ ∧ _ := arguments_delivered hf hv hm h₂
  rw [List.append_assoc (_ ++ code₂)]
  refine (branchTarget_callReg ?free).trans <| congrArg some ?value
  case free =>
    simp only [callFree_append]
    exact ⟨⟨callFree_loadOperand hcv h₁, by simp [riscv64EmitMovReg]⟩, hf'⟩
  case value =>
    rw [run_append, run_append, run_riscv64EmitMovReg (by decide)]
    refine (hd.keeps 7 ?_ ?_ ?_).trans hr
    case refine_1 => simp [Scratch, Helper, Target.acc]
    case refine_2 => decide
    case refine_3 =>
      rintro ⟨k, _, hk⟩
      have hk : 7 = k + 10 := hk
      omega

-- The branch goes to the address in the register at that time.
theorem emitCalliBranch_aarch64 (labels : String → Word .aarch64) {value : Int → Word .aarch64}
    {m : Machine .aarch64} (rest : List Insn) (hf : Fits .aarch64 fr args.length) (hv : ∀ op ∈ args, op.Valid)
    (hcv : callee.Valid) (h : Holding fr m args state value)
    (he : emitCalliBranch .aarch64 fr.locs callee args state = .ok (code, state')) :
    ∃ m', branchTarget labels m (code ++ rest) = some (m'.get 16) ∧
      CalleeRegister fr callee args (m.get 18) (operandValue labels value callee) m' 0 := by
  have ⟨⟨code₁, state₁⟩, h₁, he⟩ := Except.bind_eq_ok.mp he
  have ⟨⟨code₂, state₂⟩, h₂, he⟩ := Except.bind_eq_ok.mp he
  cases Except.ok.inj he
  have ⟨hr, hsp, hm⟩ := load_callee (r := 16) labels (by decide) writable_aarch64 (by decide)
    (by decide) hf hcv h h₁
  generalize hm' : (m.run labels code₁).set 16 ((m.run labels code₁).get _) = m' at hr hsp hm
  have hsp : m'.get 18 = m.get 18 := hsp
  have h₀ : Tracked fr callee args (m.get 18) (operandValue labels value callee) args.length state₁ m' := by
    refine ⟨.inl ⟨fun k hk hn => absurd hn <| Nat.not_lt_of_le hk, hr⟩, fun i hi _ => ?_⟩
    rw [evaluatedBefore, if_neg (by omega)]
    exact loadOperand_last (j := 0) hcv h₁ rfl
  rw [←hsp] at h₀ ⊢
  have ⟨_, _, ht, hf'⟩ : Delivered labels _ _ _ _ _ _ ∧ _ :=
    run_arguments (pushPreserves_tracked hf hv) (movePreserves_tracked hf hv) hf hv hm h₂ h₀
  refine ⟨m'.run labels code₂, ?target, ht.left⟩
  rw [List.append_assoc]
  refine (branchTarget_callReg ?free).trans ?value
  case free => exact callFree_append.mpr ⟨callFree_loadOperand hcv h₁, by simpa using hf'⟩
  case value =>
    rw [run_append, run_cons, ←hm']
    rfl

-- The branch goes to the callee from every state before the call.
def ReachesCallee (t : Target) (fr : Frame) (callee : Operand) (args : List Operand)
    (state : EmitState) (code : List Insn) : Prop :=
  ∀ (labels : String → Word t) (m : Machine t) (value : Int → Word t),
    Holding fr m args state value → InFrame fr m (m.get t.sp) value callee →
      branchTarget labels m code = some (operandValue labels value callee)

section Clobbered

-- A state in which the slots of temps are zero, and the frame is at a given address.
def zeroMachine (sp : Word .aarch64) : Machine .aarch64 where
  regs := fun r => if r = 18 then sp else 0
  mem  := fun _ => 0

def zeroValue (fr : Frame) (sp : Word .aarch64) (temp : Int) : Word .aarch64 :=
  match fr.locs temp with
  | some ⟨.object, slot, _⟩ => wordAddress sp slot
  | _                       => 0

variable {sp : Word .aarch64}

theorem zeroMachine_word {base : Word .aarch64} {k : Int} : (zeroMachine sp).word base k = 0 := by
  have hr n : ByteMemory.read (zeroMachine sp).mem (wordAddress base k) n = 0 := by
    induction n
    case zero => rfl
    case succ n hi =>
      rw [ByteMemory.read, hi]
      exact (Nat.zero_add _).trans <| Nat.zero_mul _
  simp [word, Machine.load, hr]

theorem zeroMachine_sp : (zeroMachine sp).get Target.aarch64.sp = sp := by
  simp [Machine.get, zeroMachine, Target.sp]

theorem zeroMachine_acc : (zeroMachine sp).get Target.aarch64.acc = 0 := by
  simp [Machine.get, zeroMachine, Target.acc]

theorem zeroValue_stack (h : fr.locs temp = some loc) (hk : loc.kind = .stack) :
    zeroValue fr sp temp = 0 := by
  obtain ⟨_, _, _⟩ := loc
  cases hk
  simp only [zeroValue, h]

theorem zeroValue_object (h : fr.locs temp = some loc) (hk : loc.kind = .object) :
    zeroValue fr sp temp = wordAddress sp loc.slot := by
  obtain ⟨_, _, _⟩ := loc
  cases hk
  simp only [zeroValue, h]

theorem zeroMachine_holding : Holding fr (zeroMachine sp) args state (zeroValue fr sp) where
  cached _ hl hk := zeroMachine_acc.trans (zeroValue_stack hl hk).symm
  slots _ loc hl := by
    refine .inl ?_
    cases hk : loc.kind
    case stack =>
      simp only [Holds, hk]
      rw [zeroValue_stack hl hk, zeroMachine_word]
    case object =>
      simp only [Holds, hk]
      rw [zeroValue_object hl hk, zeroMachine_sp]

-- The address of the callee is not the address of a slot.
theorem zeroValue_callee (hcv : callee.Valid) (hf : Fits .aarch64 fr args.length) (hl : fr.locs temp = some loc)
    (hk : loc.kind = .stack) (hsp : sp = wordAddress (operandValue (fun _ => 0) (fun _ => 0) callee) 1) :
    operandValue (fun _ => 0) (zeroValue fr sp) callee ≠ wordAddress sp loc.slot := by
  have hw := hf.words
  obtain ⟨h₁, h₂, h₃⟩ := fr.bounds hl
  have hv (he : operandValue (fun _ => 0) (zeroValue fr sp) callee =
      operandValue (fun _ => 0) (fun _ => 0) callee) :
      operandValue (fun _ => 0) (zeroValue fr sp) callee ≠ wordAddress sp loc.slot := by
    rw [he, hsp, wordAddress_add]
    intro ha
    have hz := wordAddress_injective (wordAddress_zero.trans ha) <| by rw [abs_lt]; omega
    omega
  by_cases ht : callee.kind = OP_TEMP
  case neg => exact hv <| operandValue_other hcv ht
  case pos =>
    rw [operandValue_temp ht, operandValue_temp ht] at hv
    rw [operandValue_temp ht]
    cases hc : fr.locs callee.value
    case none => exact hv <| by simp only [zeroValue, hc]
    case some loc' =>
      cases hk' : loc'.kind
      case stack => exact hv <| zeroValue_stack hc hk'
      case object =>
        obtain ⟨h₄, h₅, h₆⟩ := fr.bounds hc
        have hn : callee.value ≠ temp := fun he => by
          cases hc.symm.trans <| he ▸ hl
          cases hk'.symm.trans hk
        have hd := fr.apart hc hl hn
        rw [zeroValue_object hc hk']
        intro ha
        have hz := wordAddress_injective ha <| by rw [abs_lt]; omega
        omega

theorem not_reachesCallee (hf : Fits .aarch64 fr args.length) (hv : ∀ op ∈ args, op.Valid)
    (hcv : callee.Valid) (he : emitCalliBranch .aarch64 fr.locs callee args state = .ok (code, state'))
    (hk : k < args.length) (h : FarArgument fr.locs callee args k) :
    ¬ReachesCallee .aarch64 fr callee args state (code ++ rest) := by
  intro hr
  generalize hsp : wordAddress (operandValue (t := .aarch64) (fun _ => 0) (fun _ => 0) callee) 1 = sp
  have hh : Holding fr (zeroMachine sp) args state (zeroValue fr sp) := zeroMachine_holding
  have hr := hr (fun _ => 0) _ _ hh <| hh.inFrame <| by decide
  have ⟨m', ht, hc⟩ := emitCalliBranch_aarch64 (fun _ => 0) rest hf hv hcv hh he
  have hr := Option.some.inj <| ht.symm.trans hr
  rcases hc with ⟨hn, _⟩ | ⟨k, loc, _, _, ⟨loc', hl', hk', _⟩, hl, hm⟩
  case inl => exact hn k (Nat.zero_le _) hk h
  case inr =>
    cases hl.symm.trans hl'
    exact zeroValue_callee hcv hf hl hk' hsp.symm <| hr.symm.trans hm

end Clobbered

theorem calli_reachesCallee_iff (hf : Fits t fr args.length) (hv : ∀ op ∈ callee :: args, op.Valid)
    (he : emitCalli t fr.locs callee args result state = .ok (code, state')) :
    ReachesCallee t fr callee args state code ↔
      (t = .aarch64 → ∀ k < args.length, ¬FarArgument fr.locs callee args k) := by
  have ⟨hcv, hv⟩ := List.forall_mem_cons.mp hv
  have ⟨⟨call, state₁⟩, h₁, he⟩ := Except.bind_eq_ok.mp he
  have ⟨⟨rest, state₂⟩, _, he⟩ := Except.bind_eq_ok.mp he
  cases Except.ok.inj he
  constructor
  case mp =>
    rintro h rfl k hk hfar
    exact not_reachesCallee hf hv hcv h₁ hk hfar h
  case mpr =>
    intro hn labels m value h hc
    cases t
    case amd64 => exact emitCalliBranch_late (.inl rfl) hf hv hcv h hc h₁
    case i386 => exact emitCalliBranch_late (.inr rfl) hf hv hcv h hc h₁
    case riscv64 => exact emitCalliBranch_riscv64 hf hv hcv h h₁
    case aarch64 =>
      have ⟨m', ht, hr⟩ := emitCalliBranch_aarch64 labels rest hf hv hcv h h₁
      rcases hr with ⟨_, hr⟩ | ⟨k, _, _, hk, hfar, _⟩
      case inl => exact ht.trans <| congrArg some hr
      case inr => exact absurd hfar <| hn rfl k hk

end Calls

-- A frame with a callee in the first slot and an argument behind a large object.
def largeFrame : Frame :=
  ((Frame.empty.insert .stack 0 1 Frame.empty.total (by decide)).insert .object 1 4096 (by decide)
    (by decide)).insert .stack 2 1 (by decide) (by decide)

def tempOperand (temp : Int) : Operand where
  kind  := OP_TEMP
  value := temp

theorem tempOperand_valid : (tempOperand temp).Valid :=
  List.mem_cons_self

theorem largeFrame_fits (h : n ≤ 8) : Fits .aarch64 largeFrame n := by
  have hz : n - 8 = 0 := Nat.sub_eq_zero_of_le h
  simp [Fits, largeFrame, Frame.empty, Frame.insert, Target.wordBytes, targetRegisterArgCount, hz]

theorem calli_clobbered :
    ∃ code state', emitCalli .aarch64 largeFrame.locs (tempOperand 0) [tempOperand 2] (-1) {} =
      .ok (code, state') ∧
    ¬ReachesCallee .aarch64 largeFrame (tempOperand 0) [tempOperand 2] {} code := by
  have hv : ∀ op ∈ [tempOperand 2], op.Valid := by simp [tempOperand_valid]
  have hf : FarArgument largeFrame.locs (tempOperand 0) [tempOperand 2] 0 :=
    ⟨⟨.stack, 4097, 1⟩, rfl, rfl, rfl, by decide, fun h => absurd h.right.right <| by decide⟩
  exact ⟨_, _, rfl, not_reachesCallee (largeFrame_fits <| by decide) hv tempOperand_valid rfl Nat.one_pos hf⟩

-- A callee that is far away does no harm.
theorem calli_farCallee :
    ∃ code state', emitCalli .aarch64 largeFrame.locs (tempOperand 2) [tempOperand 0] (-1) {} =
      .ok (code, state') ∧
    ReachesCallee .aarch64 largeFrame (tempOperand 2) [tempOperand 0] {} code := by
  have hv : ∀ op ∈ [tempOperand 2, tempOperand 0], op.Valid := by simp [tempOperand_valid]
  have ⟨code, state', he⟩ : ∃ code state',
      emitCalli .aarch64 largeFrame.locs (tempOperand 2) [tempOperand 0] (-1) {} = .ok (code, state') :=
    ⟨_, _, rfl⟩
  refine ⟨code, state', he, (calli_reachesCallee_iff (largeFrame_fits <| by decide) hv he).mpr ?_⟩
  rintro - k hk ⟨loc, hl, _, _, hs, _⟩
  cases Nat.lt_one_iff.mp hk
  cases Option.some.inj hl
  exact absurd hs <| by decide

end Hcc.M1
