import Hcc.M1.Theorems.Calli
import Hcc.M1.Theorems.Params

-- The transfer of arguments from a caller to a callee.
namespace Hcc.M1

open Machine CInteger

variable {t : Target} {labels : String → Word t} {value : Int → Word t} {fr fr' : Frame}
         {base x : Word t} {m m' : Machine t} {state state' : EmitState} {code rest : List Insn}
         {args : List Operand} {temps : List Int} {result elided : Int} {name : String} {r : Reg}

section Enter

theorem Passed.set (h : Passed labels value base args m) (hr : ¬ArgReg t r) (hs : r ≠ t.sp) :
    Passed labels value base args (m.set r x) where
  sp             := (get_set_of_ne hs.symm).trans h.sp
  regs k hn hk   := (get_set_of_ne fun he => hr ⟨k, hk, he.symm⟩).trans <| h.regs k hn hk
  words k hk hn  := word_set.trans <| h.words k hk hn

-- The registers that hold addresses of functions.
theorem not_argReg (h : t = .aarch64 ∧ 8 ≤ r ∨ t = .riscv64 ∧ r < 10) : ¬ArgReg t r := by
  rintro ⟨k, hk, rfl⟩
  rcases h with ⟨rfl, hr⟩ | ⟨rfl, hr⟩
  case inl => exact Nat.not_lt_of_le hr hk
  case inr => exact absurd hr <| Nat.not_lt_of_le <| Nat.le_add_left ..

theorem emitCall_passed (labels : String → Word t) (hf : Fits t fr args.length) (hv : ∀ op ∈ args, op.Valid)
    (h : Holding fr m args state value)
    (he : emitCall t fr.locs name args result state = .ok (code, state')) :
    ∃ m' rest state₁ state₂, m.runToCall labels code = some (m', labels ("FUNCTION_" ++ name), rest) ∧
      Passed labels value (m.get t.sp) args m' ∧
      emitCallResult t fr.locs result args.length state₁ = .ok (rest, state₂) := by
  have ⟨⟨code₁, state₁⟩, h₁, he⟩ := Except.bind_eq_ok.mp he
  have ⟨⟨rest, state₂⟩, h₂, he⟩ := Except.bind_eq_ok.mp he
  cases Except.ok.inj he
  have ⟨hd, _, hf'⟩ : Delivered labels _ _ _ _ _ _ ∧ _ := arguments_delivered hf hv h h₁
  rw [List.append_assoc, runToCall_append hf']
  cases t
  case amd64 => exact ⟨_, _, _, _, rfl, hd.toPassed, h₂⟩
  case i386 => exact ⟨_, _, _, _, rfl, hd.toPassed, h₂⟩
  case aarch64 =>
    have hp := hd.toPassed.set (r := 16) (x := labels ("FUNCTION_" ++ name))
      (not_argReg <| .inl ⟨rfl, by decide⟩) (by decide)
    exact ⟨_, _, _, _, congrArg (fun a => some (_, a, rest)) <| get_set writable_aarch64, hp, h₂⟩
  case riscv64 =>
    have hp := hd.toPassed.set (r := 7) (x := labels ("FUNCTION_" ++ name))
      (not_argReg <| .inr ⟨rfl, by decide⟩) (by decide)
    exact ⟨_, _, _, _, congrArg (fun a => some (_, a, rest)) <| get_set writable_seven, hp, h₂⟩

-- The return address is above the frame of the callee.
def emitLink (t : Target) : List Insn :=
  match t with
  | .aarch64 => [.push 30]
  | .riscv64 => [.addImm 2 2 (-8), .store 8 1 2 0]
  | _        => []

theorem run_link :
    ∃ m₁ x, (m.enter address).run labels (emitLink t) =
        (m₁.storeWord (m.get t.sp) (-1) x).set t.sp (wordAddress (m.get t.sp) (-1)) ∧
      (Passed labels value base args m → Passed labels value base args m₁) := by
  cases t
  case amd64 => exact ⟨m, address, push_eq, id⟩
  case i386 => exact ⟨m, address, push_eq, id⟩
  case aarch64 =>
    have hsp : (m.set 30 address).get Target.aarch64.sp = m.get Target.aarch64.sp :=
      get_set_of_ne <| by decide
    refine ⟨m.set 30 address, (m.set 30 address).get 30, ?_, fun h => ?_⟩
    case refine_1 =>
      rw [←hsp]
      exact push_eq
    case refine_2 => exact h.set (not_argReg <| .inl ⟨rfl, by decide⟩) (by decide)
  case riscv64 =>
    have hsp : (m.set 1 address).get Target.riscv64.sp = m.get Target.riscv64.sp :=
      get_set_of_ne <| by decide
    refine ⟨m.set 1 address, (m.set 1 address).get 1, ?_, fun h => ?_⟩
    case refine_1 =>
      rw [←hsp]
      exact (run_riscv64Push <| by decide).trans push_eq
    case refine_2 => exact h.set (not_argReg <| .inr ⟨rfl, by decide⟩) (by decide)

-- The stack pointer is moved by a number of slots.
theorem bytes_eq (hf : Fits t fr argc) : IntType.int.wrap (fr.totalSlots * t.wordBytes) = t.wordBytes * fr.totalSlots := by
  have hp := wordBytes_pos (t := t)
  have ht := fr.total
  rw [Fits] at hf
  rw [Int.mul_comm]
  exact int_wrap_eq_self (by nlinarith) (by nlinarith)

def emitFrame (t : Target) (totalSlots : Int) : List Insn :=
  let bytes := IntType.int.wrap (totalSlots * t.wordBytes)
  if totalSlots > 0 then
    match t with
    | .aarch64 => aarch64EmitSubImmReg 18 bytes
    | .riscv64 => riscv64EmitAddImmReg 2 2 (-bytes)
    | _        => [.addImm t.sp t.sp (-bytes)]
  else []

theorem emitPrologue_eq : emitPrologue t total = emitLink t ++ emitFrame t total := by
  cases t <;> rfl

theorem set_sp_zero : m = m.set t.sp (wordAddress (m.get t.sp) 0) := by
  rw [wordAddress_zero, set_get writable_sp]

theorem run_frame (hf : Fits t fr argc) :
    m.run labels (emitFrame t fr.totalSlots) = m.set t.sp (wordAddress (m.get t.sp) (-fr.totalSlots)) := by
  have h₀ : (0 : Int) ≤ t.wordBytes * fr.totalSlots := Int.mul_nonneg (Int.natCast_nonneg _) fr.total
  have ht := fr.total
  unfold emitFrame
  simp only [bytes_eq hf]
  split
  case isFalse h =>
    have hz : fr.totalSlots = 0 := by omega
    rw [hz]
    exact set_sp_zero
  case isTrue h =>
    rw [wordAddress, Int.mul_neg]
    cases t
    case amd64 => rfl
    case i386 => rfl
    case aarch64 => exact run_aarch64EmitSubImmReg h₀
    case riscv64 => exact run_riscv64EmitAddImmReg <| by decide

-- The stack pointer of the callee, whose frame is below the return address.
def calleeSp (base : Word t) (argc : Nat) (fr' : Frame) : Word t :=
  wordAddress base (-(argc - targetRegisterArgCount t : Nat) - 1 - fr'.totalSlots)

theorem run_prologue (address : Word t) (h : Passed labels value base args m) (hf : Fits t fr' count) :
    Receiving fr' (fun k => operandValue labels value (args.getD k {})) (calleeSp base args.length fr')
      args.length count [] ((m.enter address).run labels (emitPrologue t fr'.totalSlots)) := by
  have hw := hf.words
  have ht := fr'.total
  have ⟨m₁, x, hm, hp⟩ : ∃ m₁ x, (m.enter address).run labels (emitLink t) = _ ∧
    (Passed labels value base args m → _) := run_link
  have hp := hp h
  have hsp : wordAddress (wordAddress base (-(args.length - targetRegisterArgCount t : Nat))) (-1) =
      wordAddress base (-(args.length - targetRegisterArgCount t : Nat) - 1) := by
    rw [wordAddress_add]
    rfl
  rw [emitPrologue_eq, run_append, hm, run_frame hf, get_set writable_sp, set_set, h.sp, hsp,
    wordAddress_add]
  refine ⟨get_set writable_sp, fun k _ hn hk => ?_, nofun⟩
  rw [incoming, get_set writable_sp]
  split
  case isTrue hr => exact (get_set_of_ne <| argReg_ne_sp hr).trans <| hp.regs k hn hr
  case isFalse hr =>
    have hr := Nat.le_of_not_lt hr
    have hi : (-(args.length - targetRegisterArgCount t : Nat) - 1 + -fr'.totalSlots +
        (fr'.totalSlots + 1 + (k - targetRegisterArgCount t : Nat)) : Int) = -(args.length - k) := by
      omega
    rw [word_set, word_wordAddress, hi, storeWord_wordAddress, ←hp.words k hr hn]
    exact word_storeWord_of_ne (by omega) <| by rw [abs_lt]; omega

end Enter
section Return

def emitAddSp (t : Target) (bytes : Int) : List Insn :=
  match t with
  | .aarch64 => aarch64EmitAddImmReg 18 18 bytes
  | .riscv64 => riscv64EmitAddImmReg 2 2 bytes
  | _        => [.addImm t.sp t.sp bytes]

theorem run_addSp (h : 0 ≤ bytes) :
    m.run labels (emitAddSp t bytes) = m.set t.sp (m.get t.sp + .ofInt _ bytes) := by
  cases t
  case amd64 => rfl
  case i386 => rfl
  case aarch64 => exact run_aarch64EmitAddImmReg h
  case riscv64 => exact run_riscv64EmitAddImmReg <| by decide

theorem emitCleanupStack_eq :
    emitCleanupStack t total =
      if total > 0 then emitAddSp t (IntType.int.wrap (total * t.wordBytes)) else [] := by
  cases t <;> rfl

theorem emitCallCleanup_eq :
    emitCallCleanup t argc =
      if IntType.int.wrap (callStackBytes t argc) > 0 then
        emitAddSp t (IntType.int.wrap (callStackBytes t argc))
      else [] := by
  cases t <;> rfl

theorem run_cleanupStack (hf : Fits t fr' count) :
    m.run labels (emitCleanupStack t fr'.totalSlots) =
      m.set t.sp (wordAddress (m.get t.sp) fr'.totalSlots) := by
  have ht := fr'.total
  rw [emitCleanupStack_eq, bytes_eq hf]
  split
  case isFalse h =>
    have hz : fr'.totalSlots = 0 := by omega
    rw [hz]
    exact set_sp_zero
  case isTrue h => exact run_addSp <| Int.mul_nonneg (Int.natCast_nonneg _) ht

theorem run_return (hf : Fits t fr' count) :
    (m.run labels (emitReturn t fr'.totalSlots)).get t.sp =
      wordAddress (m.get t.sp) (fr'.totalSlots + 1) := by
  unfold emitReturn
  rw [run_append, run_cleanupStack hf, ←wordAddress_add]
  generalize wordAddress (m.get t.sp) fr'.totalSlots = a
  cases t
  case riscv64 =>
    have hw : Writable .riscv64 2 := writable_riscv64 <| by decide
    have hg x : ((m.set 2 a).set 1 x).get 2 = a := (get_set_of_ne <| by decide).trans <| get_set hw
    have ha : a + .ofInt _ 8 = wordAddress a 1 := by simp [wordAddress, Target.wordBytes]
    simp only [run_cons, run_nil, exec, Target.link, Target.sp, reduceCtorEq, if_false, get_set hw, hg, ha]
  all_goals
    simp only [run_cons, run_nil, exec, Target.link, reduceCtorEq, if_true, if_false,
      get_set writable_sp, wordAddress_one]

theorem run_callCleanup (hf : Fits t fr args.length) :
    m.run labels (emitCallCleanup t args.length) =
      m.set t.sp (wordAddress (m.get t.sp) (args.length - targetRegisterArgCount t : Nat)) := by
  rw [emitCallCleanup_eq, callStackBytes_eq, hf.bias_eq (Int.natCast_nonneg _) (Int.le_refl _)]
  split
  case isFalse h =>
    have hz : args.length - targetRegisterArgCount t = 0 := by
      have := wordBytes_pos (t := t)
      by_contra hn
      exact h <| Int.mul_pos this <| by omega
    rw [hz]
    exact set_sp_zero
  case isTrue h => exact run_addSp <| Int.le_of_lt h

theorem run_callResult (hf : Fits t fr args.length)
    (he : emitCallResult t fr.locs result args.length state = .ok (code, state')) :
    (m.run labels code).get t.sp =
      wordAddress (m.get t.sp) (args.length - targetRegisterArgCount t : Nat) := by
  simp only [emitCallResult] at he
  split at he
  case isTrue =>
    have ⟨⟨store, state₁⟩, h₁, he⟩ := Except.bind_eq_ok.mp he
    cases Except.ok.inj he
    have ⟨loc, hl, _, _, hc⟩ := emitStoreTemp_ok h₁
    rw [run_append, run_callCleanup hf, hc]
    split
    case isTrue => exact get_set writable_sp
    case isFalse =>
      refine ((keeps_storeTemp hf hl rfl).regs _ fun hs => not_scratch_sp <| .inr hs).trans ?_
      exact get_set writable_sp
  case isFalse =>
    cases Except.ok.inj he
    rw [List.append_nil, run_callCleanup hf]
    exact get_set writable_sp

end Return

theorem call_delivers (hf : Fits t fr args.length) (hf' : Fits t fr' temps.length)
    (hv : ∀ op ∈ args, op.Valid) (hn : temps.Nodup) (h : Holding fr m args state value)
    (he : emitCall t fr.locs name args result state = .ok (code, state'))
    (hp : emitParams t fr'.locs fr'.totalSlots elided 0 temps {} = .ok (params, paramState)) :
    ∃ m₁ rest, m.runToCall labels code = some (m₁, labels ("FUNCTION_" ++ name), rest) ∧
      ∀ address,
        let m₂ := (m₁.enter address).run labels (emitPrologue t fr'.totalSlots ++ params)
        (∀ i, (hi : i < temps.length) → (ha : i < args.length) →
          Receives fr' (m₂.get t.sp) elided m₂ paramState temps[i] (operandValue labels value args[i])) ∧
        ∀ m₃ : Machine t, m₃.get t.sp = m₂.get t.sp →
          ((m₃.run labels (emitReturn t fr'.totalSlots)).run labels rest).get t.sp = m.get t.sp := by
  have ⟨m₁, rest, state₁, state₂, hr, hpass, hres⟩ := emitCall_passed labels hf hv h he
  refine ⟨m₁, rest, hr, fun address => ?_⟩
  have hrec := run_prologue address hpass hf'
  have ⟨hsp, hpar⟩ : (Machine.run labels _ params).get t.sp = _ ∧ _ := run_allParams hf' hn hrec hp
  rw [run_append]
  refine ⟨fun i hi ha => ?_, fun m₃ h₃ => ?_⟩
  case refine_1 =>
    rw [hsp]
    rw [←List.getD_eq_getElem args {} ha]
    exact hpar i hi ha
  case refine_2 =>
    have hz : (-(args.length - targetRegisterArgCount t : Nat) - 1 - fr'.totalSlots +
        (fr'.totalSlots + 1 + (args.length - targetRegisterArgCount t : Nat)) : Int) = 0 := by
      omega
    rw [run_callResult hf hres, run_return hf', h₃, hsp, calleeSp, wordAddress_add, wordAddress_add, hz,
      wordAddress_zero]

-- The call of a function with two parameters.
theorem call_delivers_twoTemps :
    ∃ code state' params paramState m₁ rest,
      emitCall .aarch64 largeFrame.locs "f" [tempOperand 2, tempOperand 0] (-1) {} = .ok (code, state') ∧
      emitParams .aarch64 largeFrame.locs largeFrame.totalSlots (-1) 0 [0, 2] {} =
        .ok (params, paramState) ∧
      (zeroMachine 0).runToCall (fun _ => 0) code = some (m₁, 0, rest) ∧
      ∀ address,
        let m₂ := (m₁.enter address).run (fun _ => 0) (emitPrologue .aarch64 largeFrame.totalSlots ++ params)
        Receives largeFrame (m₂.get 18) (-1) m₂ paramState 2 0 := by
  have ⟨code, state', he⟩ : ∃ code state',
      emitCall .aarch64 largeFrame.locs "f" [tempOperand 2, tempOperand 0] (-1) {} = .ok (code, state') :=
    ⟨_, _, rfl⟩
  have ⟨params, paramState, hp⟩ : ∃ params paramState,
      emitParams .aarch64 largeFrame.locs largeFrame.totalSlots (-1) 0 [0, 2] {} = .ok (params, paramState) :=
    ⟨_, _, rfl⟩
  have hv : ∀ op ∈ [tempOperand 2, tempOperand 0], op.Valid := by simp [tempOperand_valid]
  have ⟨m₁, rest, hr, hd⟩ : ∃ m₁ rest, (zeroMachine 0).runToCall (fun _ => 0) code =
      some (m₁, 0, rest) ∧ _ := call_delivers (largeFrame_fits <| by decide) (largeFrame_fits <| by decide) hv (by decide)
    zeroMachine_holding he hp
  refine ⟨code, state', params, paramState, m₁, rest, he, hp, hr, fun address => ?_⟩
  exact (hd address).left 1 (by decide) (by decide)

end Hcc.M1
