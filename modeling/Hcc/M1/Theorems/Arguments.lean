import Hcc.M1.Theorems.Operand
import Mathlib.Data.List.Nodup
import Mathlib.Tactic.IntervalCases

-- The evaluation of the arguments of a call.
namespace Hcc.M1

open Machine CInteger

variable {t : Target} {labels : String → Word t} {value : Int → Word t} {base : Word t} {fr : Frame}
         {args : List Operand} {m₀ m m' : Machine t} {state state' : EmitState} {code code₁ code₂ : List Insn}
         {i k limit : Nat} {j : Int}

theorem getD_mem {l : List α} (h : i < l.length) : l.getD i d ∈ l :=
  List.getD_eq_getElem l d h ▸ List.getElem_mem h

theorem Cached.congr (h : Cached fr m state value) (ha : m'.get t.acc = m.get t.acc) :
    Cached fr m' state value :=
  fun _ hl hk => ha.trans <| h _ hl hk

section Stack

-- The arguments from an index on have been pushed, and nothing else has changed.
structure Pushed (labels : String → Word t) (value : Int → Word t) (base : Word t) (fr : Frame)
    (args : List Operand) (m₀ m : Machine t) (i : Nat) : Prop where
  sp    : m.get t.sp = wordAddress base (-(args.length - i))
  words : ∀ k, i ≤ k → k < args.length →
          m.word base (-(args.length - k)) = operandValue labels value (args.getD k {})
  frame : ∀ k, 0 ≤ k → k < fr.totalSlots → m.word base k = m₀.word base k
  regs  : ∀ r, ¬Scratch t r → r ≠ t.sp → m.get r = m₀.get r

-- The offsets of the words of the frame can be represented while the arguments are evaluated.
def Fits (t : Target) (fr : Frame) (argc : Nat) : Prop :=
  t.wordBytes * (fr.totalSlots + (argc - targetRegisterArgCount t : Nat)) < 2 ^ 31

theorem Fits.words (h : Fits t fr argc) :
    fr.totalSlots + (argc - targetRegisterArgCount t : Nat) < 2 ^ 29 := by
  have h₁ : (4 : Int) ≤ t.wordBytes := by cases t <;> decide
  have h₂ := fr.total
  rw [Fits] at h
  nlinarith

theorem Fits.mono (h : Fits t fr argc) (hj : j ≤ (argc - targetRegisterArgCount t : Nat)) :
    t.wordBytes * (fr.totalSlots + j) < 2 ^ 31 := by
  have h₁ := wordBytes_pos (t := t)
  rw [Fits] at h
  nlinarith

theorem Fits.bias_eq (h : Fits t fr argc) (h₀ : 0 ≤ j)
    (hj : j ≤ (argc - targetRegisterArgCount t : Nat)) :
    IntType.int.wrap (j * t.wordBytes) = t.wordBytes * j := by
  have h₁ := wordBytes_pos (t := t)
  have h₂ := fr.total
  rw [Int.mul_comm]
  have := h.mono hj
  exact int_wrap_eq_self (by nlinarith) (by nlinarith)

theorem Pushed.push (h : Pushed labels value base fr args m₀ m (i + 1))
    (hr : targetRegisterArgCount t ≤ i) (hi : i < args.length) (hf : Fits t fr args.length)
    (hl : Loads labels m code (operandValue labels value (args.getD i {}))) :
    Pushed labels value base fr args m₀ (m.run labels (code ++ emitPush t)) i := by
  have hw := hf.words
  have ht := fr.total
  have hsp : (m.run labels code).get t.sp = wordAddress base (-(args.length - (i + 1 : Nat))) :=
    (hl.keeps.regs _ not_scratch_sp).trans h.sp
  have ha : wordAddress ((m.run labels code).get t.sp) (-1) = wordAddress base (-(args.length - i)) := by
    rw [hsp, wordAddress_add]
    congr 1
    omega
  rw [run_append, run_push, hl.acc]
  have hs v : (m.run labels code).storeWord ((m.run labels code).get t.sp) (-1) v =
      (m.run labels code).storeWord base (-(args.length - i)) v :=
    congrArg ((m.run labels code).store t.wordBytes · v) ha
  rw [hs, ha]
  refine ⟨get_set writable_sp, ?words, ?frame, ?regs⟩
  case words =>
    intro k hk hn
    rw [word_set]
    by_cases he : k = i
    case pos => rw [he, word_storeWord]
    case neg =>
      rw [word_storeWord_of_ne (by omega) (by rw [abs_lt]; omega), hl.keeps.word]
      exact h.words k (by omega) hn
  case frame =>
    intro k hk hn
    rw [word_set, word_storeWord_of_ne (by omega) (by rw [abs_lt]; omega), hl.keeps.word]
    exact h.frame k hk hn
  case regs =>
    intro r hr hn
    rw [get_set_of_ne hn, get_storeWord]
    exact (hl.keeps.regs r hr).trans <| h.regs r hr hn

-- The slots of temps are in the frame.
theorem holds_of_frame (h : ∀ k, 0 ≤ k → k < fr.totalSlots → m.word base k = m₀.word base k)
    (hl : fr.locs temp = some loc) (hv : Holds m₀ base loc v) : Holds m base loc v := by
  obtain ⟨h₁, h₂, h₃⟩ := fr.bounds hl
  have hw : m.word base loc.slot = m₀.word base loc.slot := h _ h₁ <| by omega
  cases hk : loc.kind
  case stack =>
    simp only [Holds, hk] at hv ⊢
    exact hw.trans hv
  case object =>
    simp only [Holds, hk] at hv ⊢
    exact hv

-- The temps of an operand have their values before the call.
def InFrame (fr : Frame) (m₀ : Machine t) (base : Word t) (value : Int → Word t) (op : Operand) : Prop :=
  op.kind = OP_TEMP → ∀ loc, fr.locs op.value = some loc → Holds m₀ base loc (value op.value)

theorem Pushed.refl : Pushed labels value (m.get t.sp) fr args m m args.length where
  sp    := by simp
  words := fun _ hk hn => absurd hn <| Nat.not_lt_of_le hk
  frame := fun _ _ _ => rfl
  regs  := fun _ _ _ => rfl

theorem Pushed.step (h : Pushed labels value base fr args m₀ m (i + 1)) (hc : Cached fr m state value)
    (hf : Fits t fr args.length) (hr : targetRegisterArgCount t ≤ i) (hi : i < args.length)
    (hv : (args.getD i {}).Valid) (ha : InFrame fr m₀ base value (args.getD i {}))
    (he : emitLoadOperand t fr.locs (t.wordBytes * (args.length - (i + 1 : Nat) : Int)) (args.getD i {})
      state = .ok (code, state')) :
    Pushed labels value base fr args m₀ (m.run labels (code ++ emitPush t)) i ∧
      Cached fr (m.run labels (code ++ emitPush t)) state' value := by
  have hj : (args.length - (i + 1 : Nat) : Int) ≤ (args.length - targetRegisterArgCount t : Nat) := by
    omega
  have h₀ : (0 : Int) ≤ args.length - (i + 1 : Nat) := by omega
  have ha : Available fr m base (args.length - (i + 1 : Nat)) value state (args.getD i {}) :=
    fun hk _ hl => .inl <| holds_of_frame h.frame hl <| ha hk _ hl
  have ⟨hl, hc⟩ : Loads labels m code _ ∧ _ := loads_loadOperand h.sp h₀ (hf.mono hj) hv ha hc he
  refine ⟨h.push hr hi hf hl, hc.congr ?_⟩
  rw [run_append, run_push, get_set_of_ne acc_ne_sp, get_storeWord]

variable (labels) in
-- What every iteration preserves holds after the loop.
theorem pushedArguments_rule {I : (i : Nat) → EmitState → Machine t → Prop}
    (step : ∀ {i state m code state'}, targetRegisterArgCount t ≤ i → i < args.length → I (i + 1) state m →
      emitLoadOperand t fr.locs (t.wordBytes * (args.length - (i + 1 : Nat) : Int)) (args.getD i {})
        state = .ok (code, state') → I i state' (m.run labels (code ++ emitPush t)) ∧ CallFree code)
    (hf : Fits t fr args.length) (hi : i ≤ args.length) (h : I i state m)
    (he : emitPushedArguments t fr.locs args (targetRegisterArgCount t) i (args.length - i : Int) state =
      .ok (code, state')) :
    I (min i (targetRegisterArgCount t)) state' (m.run labels code) ∧ CallFree code := by
  induction i generalizing m code state
  case zero =>
    cases Except.ok.inj he
    exact ⟨by simpa using h, callFree_nil⟩
  case succ i ih =>
    rw [emitPushedArguments] at he
    split at he
    case isFalse hl =>
      cases Except.ok.inj he
      exact ⟨by simpa [Nat.min_eq_left (Nat.gt_of_not_le hl)] using h, callFree_nil⟩
    case isTrue hl =>
      have ⟨⟨load, state₁⟩, h₁, he⟩ := Except.bind_eq_ok.mp he
      have ⟨⟨rest, state₂⟩, h₂, he⟩ := Except.bind_eq_ok.mp he
      cases Except.ok.inj he
      have hn : (args.length - (i + 1 : Nat) + 1 : Int) = args.length - i := by omega
      rw [hf.bias_eq (by omega) (by omega)] at h₁
      rw [hn] at h₂
      have ⟨hs, hf₁⟩ := step hl hi h h₁
      have ⟨hs, hf₂⟩ := ih (Nat.le_of_lt hi) hs h₂
      rw [Nat.min_eq_right (Nat.le_succ_of_le hl), ←Nat.min_eq_right hl, run_append]
      exact ⟨hs, callFree_append.mpr ⟨callFree_append.mpr ⟨hf₁, callFree_push⟩, hf₂⟩⟩

end Stack
section Registers

-- The registers of the first arguments.
def argReg : Target → (index : Nat) → Reg
  | .aarch64, index => index
  | .riscv64, index => index + 10
  | _,        index => [7, 6, 2, 1, 8, 9].getD index 0

theorem argReg_writable (hi : i < targetRegisterArgCount t) : Writable t (argReg t i) := by
  rintro rfl
  simp [argReg]

theorem argReg_ne_sp (hi : i < targetRegisterArgCount t) : argReg t i ≠ t.sp := by
  cases t <;> simp only [targetRegisterArgCount] at hi <;> interval_cases i <;> decide

theorem argReg_injective (hi : i < targetRegisterArgCount t) (hk : k < targetRegisterArgCount t)
    (h : argReg t i = argReg t k) : i = k := by
  cases t
  case amd64 =>
    have hd : ∀ i < 6, ∀ k < 6, argReg .amd64 i = argReg .amd64 k → i = k := by decide
    exact hd i hi k hk h
  case i386 => exact absurd hi <| Nat.not_lt_zero _
  case aarch64 => exact h
  case riscv64 => exact Nat.add_right_cancel h

-- Only the first argument is passed in the accumulator, except for AMD64.
theorem argReg_scratch (hi : i < targetRegisterArgCount t) (h : Scratch t (argReg t i)) :
    i = 0 ∧ t ≠ .amd64 := by
  cases t
  case amd64 =>
    have hd : ∀ i < 6, argReg .amd64 i ≠ Target.acc .amd64 := by decide
    have h := h.resolve_left <| hd i hi
    simp [Helper] at h
  case i386 => exact absurd hi <| Nat.not_lt_zero _
  case aarch64 =>
    rcases h with h | ⟨_, rfl⟩ | ⟨_, _⟩
    case inl => exact ⟨h, by decide⟩
    case inr.inl => exact absurd hi <| by decide
    case inr.inr => contradiction
  case riscv64 =>
    simp [Scratch, Helper, argReg, Target.acc] at h
    exact ⟨by omega, by decide⟩

theorem emitArgumentMove_eq (hi : i < targetRegisterArgCount t)
    (h : emitArgumentMove t i = .ok code) :
    code = if argReg t i = t.acc then [] else [.move (argReg t i) t.acc] := by
  cases t
  case amd64 =>
    simp only [targetRegisterArgCount] at hi
    interval_cases i <;> cases Except.ok.inj h <;> rfl
  case i386 => exact absurd hi <| Nat.not_lt_zero _
  case aarch64 =>
    have hi : i < 8 := hi
    rw [emitArgumentMove, if_pos hi] at h
    split at h <;> cases Except.ok.inj h
    case isTrue hz => simp [argReg, hz, Target.acc]
    case isFalse hz => simp [argReg, hz, Target.acc]
  case riscv64 =>
    have hi : i < 8 := hi
    rw [emitArgumentMove, if_pos hi] at h
    split at h <;> cases Except.ok.inj h
    case isTrue hz => simp [argReg, hz, Target.acc]
    case isFalse hz => simp [argReg, hz, Target.acc, riscv64EmitMovReg, riscv64ArgReg]

theorem run_argumentMove (hi : i < targetRegisterArgCount t) (h : emitArgumentMove t i = .ok code) :
    m.run labels code = m.set (argReg t i) (m.get t.acc) := by
  rw [emitArgumentMove_eq hi h]
  split
  case isTrue he => rw [he, run_nil, set_get writable_acc]
  case isFalse => rfl

theorem callFree_argumentMove (hi : i < targetRegisterArgCount t)
    (h : emitArgumentMove t i = .ok code) : CallFree code := by
  rw [emitArgumentMove_eq hi h]
  split <;> simp

def ArgReg (t : Target) (r : Reg) : Prop :=
  ∃ i < targetRegisterArgCount t, r = argReg t i

theorem callStackBytes_eq :
    callStackBytes t args.length = ((args.length - targetRegisterArgCount t : Nat) : Int) * t.wordBytes := by
  cases t
  case i386 => rfl
  all_goals
    simp only [callStackBytes, targetRegisterArgCount, Target.wordBytes]
    grind

-- The order of evaluation keeps the accumulator for the last argument.
structure Order (t : Target) (args : List Operand) (indices : List Nat) : Prop where
  bounds : ∀ k ∈ indices, k < args.length ∧ k < targetRegisterArgCount t
  nodup  : indices.Nodup
  last   : indices.Pairwise fun k _ => ¬Scratch t (argReg t k)

theorem Order.before (h : Order t args (done ++ i :: indices)) (hk : k ∈ done) :
    k < targetRegisterArgCount t ∧ k ≠ i ∧ ¬Scratch t (argReg t k) where
  left        := (h.bounds k <| List.mem_append_left _ hk).right
  right.left  := fun he =>
    List.disjoint_of_nodup_append h.nodup hk (he.symm ▸ List.mem_cons_self)
  right.right := (List.pairwise_append.mp h.last).right.right k hk i List.mem_cons_self

-- Some of the arguments are in their registers, and nothing else has changed.
structure Registered (labels : String → Word t) (value : Int → Word t) (args : List Operand)
    (m₀ m : Machine t) (done : List Nat) : Prop where
  keeps : Keeps m₀ m fun r => Scratch t r ∨ ArgReg t r
  args  : ∀ k ∈ done, m.get (argReg t k) = operandValue labels value (args.getD k {})

theorem Registered.sp (h : Registered labels value args m₀ m done) : m.get t.sp = m₀.get t.sp :=
  h.keeps.regs _ fun hs => hs.elim not_scratch_sp fun ⟨_, hk, he⟩ => argReg_ne_sp hk he.symm

theorem Registered.move (h : Registered labels value args m₀ m done)
    (ho : Order t args (done ++ i :: indices))
    (hl : Loads labels m code₁ (operandValue labels value (args.getD i {})))
    (hm : emitArgumentMove t i = .ok code₂) :
    Registered labels value args m₀ (m.run labels (code₁ ++ code₂)) (done ++ [i]) := by
  have hi := (ho.bounds i <| List.mem_append_right _ List.mem_cons_self).right
  rw [run_append, run_argumentMove hi hm, hl.acc]
  refine ⟨(h.keeps.trans <| hl.keeps.mono fun _ => .inl).trans <| .set <| .inr ⟨i, hi, rfl⟩, ?_⟩
  intro k hk
  cases List.mem_append.mp hk
  case inl hk =>
    have ⟨h₁, hn, h₂⟩ := ho.before hk
    rw [get_set_of_ne fun he => hn <| argReg_injective h₁ hi he, hl.keeps.regs _ h₂]
    exact h.args k hk
  case inr hk =>
    cases List.mem_singleton.mp hk
    exact get_set <| argReg_writable hi

theorem Registered.step (h : Registered labels value args m₀ m done) (hc : Cached fr m state value)
    (hf : Fits t fr args.length) (ho : Order t args (done ++ i :: indices)) (hv : (args.getD i {}).Valid)
    (hsp : m₀.get t.sp = wordAddress base (-(args.length - targetRegisterArgCount t : Nat)))
    (ha : Available fr m₀ base (args.length - targetRegisterArgCount t : Nat) value state
      (args.getD i {}))
    (he : emitLoadOperand t fr.locs (t.wordBytes * (args.length - targetRegisterArgCount t : Nat))
      (args.getD i {}) state = .ok (code₁, state'))
    (hm : emitArgumentMove t i = .ok code₂) :
    Registered labels value args m₀ (m.run labels (code₁ ++ code₂)) (done ++ [i]) ∧
      Cached fr (m.run labels (code₁ ++ code₂)) state' value := by
  have hi := (ho.bounds i <| List.mem_append_right _ List.mem_cons_self).right
  have ha : Available fr m base (args.length - targetRegisterArgCount t : Nat) value state
      (args.getD i {}) :=
    fun hk _ hl => (ha hk _ hl).imp_left (holds_congr h.keeps.mem).mpr
  have ⟨hl, hc⟩ : Loads labels m code₁ _ ∧ _ :=
    loads_loadOperand (h.sp.trans hsp) (Int.natCast_nonneg _) hf hv ha hc he
  refine ⟨h.move ho hl hm, hc.congr ?_⟩
  rw [run_append, run_argumentMove hi hm, get_set_get writable_acc]

variable (labels) in
theorem registerArguments_rule {I : (done : List Nat) → EmitState → Machine t → Prop}
    (step : ∀ {done i indices state m code₁ code₂ state'}, order = done ++ i :: indices →
      I done state m →
      emitLoadOperand t fr.locs (t.wordBytes * (args.length - targetRegisterArgCount t : Nat))
        (args.getD i {}) state = .ok (code₁, state') →
      emitArgumentMove t i = .ok code₂ →
      I (done ++ [i]) state' (m.run labels (code₁ ++ code₂)) ∧ CallFree (code₁ ++ code₂))
    (hf : Fits t fr args.length) (ho : order = done ++ indices) (h : I done state m)
    (he : emitRegisterArguments t fr.locs args indices state = .ok (code, state')) :
    I order state' (m.run labels code) ∧ CallFree code := by
  induction indices generalizing done m code state
  case nil =>
    cases Except.ok.inj he
    rw [List.append_nil] at ho
    exact ⟨ho ▸ h, callFree_nil⟩
  case cons i indices ih =>
    have ⟨⟨load, state₁⟩, h₁, he⟩ := Except.bind_eq_ok.mp he
    have ⟨move, h₂, he⟩ := Except.bind_eq_ok.mp he
    have ⟨⟨rest, state₂⟩, h₃, he⟩ := Except.bind_eq_ok.mp he
    cases Except.ok.inj he
    rw [callStackBytes_eq, hf.bias_eq (Int.natCast_nonneg _) (Int.le_refl _)] at h₁
    have ⟨hs, hf₁⟩ := step ho h h₁ h₂
    have ⟨hs, hf₂⟩ := ih (by simpa using ho) hs h₃
    rw [run_append]
    exact ⟨hs, callFree_append.mpr ⟨hf₁, hf₂⟩⟩

-- The state at the call: all of the arguments are where the callee expects them.
structure Passed (labels : String → Word t) (value : Int → Word t) (base : Word t)
    (args : List Operand) (m : Machine t) : Prop where
  sp    : m.get t.sp = wordAddress base (-(args.length - targetRegisterArgCount t : Nat))
  regs  : ∀ k < args.length, k < targetRegisterArgCount t →
          m.get (argReg t k) = operandValue labels value (args.getD k {})
  words : ∀ k, targetRegisterArgCount t ≤ k → k < args.length →
          m.word base (-(args.length - k)) = operandValue labels value (args.getD k {})

-- The evaluation of the arguments changes nothing else.
structure Delivered (labels : String → Word t) (value : Int → Word t) (base : Word t) (fr : Frame)
    (args : List Operand) (m₀ m : Machine t) : Prop extends Passed labels value base args m where
  frame : ∀ k, 0 ≤ k → k < fr.totalSlots → m.word base k = m₀.word base k
  keeps : ∀ r, ¬Scratch t r → r ≠ t.sp → ¬ArgReg t r → m.get r = m₀.get r

-- The temp that is only in the accumulator, as its store has been elided.
def Elided (t : Target) (args : List Operand) (state : EmitState) (temp : Int) : Prop :=
  callConsumesRaxTemp t args temp ∧ state.raxTemp = temp ∧
    ∀ op ∈ args.tail, op.kind = OP_TEMP → op.value ≠ temp

-- The values of the temps in a state before a call.
structure Holding (fr : Frame) (m : Machine t) (args : List Operand) (state : EmitState)
    (value : Int → Word t) : Prop where
  cached : Cached fr m state value
  slots  : ∀ temp loc, fr.locs temp = some loc →
           Holds m (m.get t.sp) loc (value temp) ∨ (loc.kind = .stack ∧ Elided t args state temp)

theorem Elided.amd64 (h : Elided t args state temp) : t = .amd64 ∧ args.length ≤ 6 := by
  have h := h.left
  simp only [callConsumesRaxTemp, Bool.and_eq_true, decide_eq_true_eq] at h
  exact ⟨h.left.left.left.left, h.left.left.right⟩

theorem Elided.index (h : Elided t args state (args.getD k {}).value) (hk : k < args.length)
    (ht : (args.getD k {}).kind = OP_TEMP) : k = 0 := by
  cases k
  case zero => rfl
  case succ k =>
    cases args
    case nil => contradiction
    case cons op args =>
      have hm : args.getD k {} ∈ args := getD_mem <| Nat.lt_of_succ_lt_succ hk
      exact absurd rfl <| h.right.right _ hm ht

theorem emitPushedArguments_le (h : i ≤ limit) :
    emitPushedArguments t locs args limit i pushed state = .ok ([], state) := by
  cases i
  case zero => rfl
  case succ i => exact if_neg <| Nat.not_le_of_gt h

theorem Holding.inFrame_of_le (h : Holding fr m args state value)
    (hk : targetRegisterArgCount t ≤ k) (hn : k < args.length) :
    InFrame fr m (m.get t.sp) value (args.getD k {}) := by
  refine fun ht loc hl => (h.slots _ _ hl).resolve_right fun ⟨_, he⟩ => ?_
  have ⟨ha, hn⟩ := he.amd64
  cases ha
  have hz := he.index ‹_› ht
  simp only [targetRegisterArgCount] at hk
  omega

-- The arguments in registers are evaluated in an order that keeps the accumulator for the last one.
def registerOrder (t : Target) (argc : Nat) : List Nat :=
  let indices := List.range (min argc (targetRegisterArgCount t))
  if t = .amd64 then indices else indices.reverse

theorem mem_registerOrder : k ∈ registerOrder t argc ↔ k < argc ∧ k < targetRegisterArgCount t := by
  simp only [registerOrder]
  split <;> simp

theorem zero_not_mem_tail_range : 0 ∉ (List.range n).tail := by
  cases n <;> simp [List.range_succ_eq_map]

theorem registerOrder_nodup : (registerOrder t argc).Nodup := by
  simp only [registerOrder]
  split
  case isTrue => exact List.nodup_range
  case isFalse => exact List.nodup_reverse.mpr List.nodup_range

theorem registerOrder_pairwise :
    (registerOrder t argc).Pairwise fun k _ => ¬Scratch t (argReg t k) := by
  have hr {k} (hk : k < targetRegisterArgCount t) (h : t = .amd64 ∨ k ≠ 0) :
      ¬Scratch t (argReg t k) := fun hs =>
    have ⟨h₀, ht⟩ := argReg_scratch hk hs
    h.elim ht fun h => h h₀
  by_cases ht : t = .amd64
  case pos =>
    refine registerOrder_nodup.imp_of_mem fun hk _ _ => ?_
    exact hr (mem_registerOrder.mp hk).right <| .inl ht
  case neg =>
    simp only [registerOrder, if_neg ht, List.pairwise_reverse]
    refine List.pairwise_lt_range.imp_of_mem fun hi hk hl => ?_
    have hk := List.mem_range.mp hk
    exact hr (by omega) <| .inr <| Nat.ne_zero_of_lt hl

theorem order_registerOrder : Order t args (registerOrder t args.length) where
  bounds _ hk := mem_registerOrder.mp hk
  nodup       := registerOrder_nodup
  last        := registerOrder_pairwise

theorem length_registerOrder : (registerOrder t argc).length = min argc (targetRegisterArgCount t) := by
  simp only [registerOrder]
  split <;> simp

section Evaluation

variable {P : (remaining : Nat) → EmitState → Machine t → Prop}

-- A property that is preserved when one of the pushed arguments is evaluated.
def PushPreserves (labels : String → Word t) (base : Word t) (fr : Frame) (args : List Operand)
    (P : (remaining : Nat) → EmitState → Machine t → Prop) : Prop :=
  ∀ ⦃i state m code state'⦄, targetRegisterArgCount t ≤ i → i < args.length →
    m.get t.sp = wordAddress base (-(args.length - (i + 1 : Nat))) → P (i + 1) state m →
    emitLoadOperand t fr.locs (t.wordBytes * (args.length - (i + 1 : Nat) : Int)) (args.getD i {})
      state = .ok (code, state') → P i state' (m.run labels (code ++ emitPush t))

-- The same for an argument in a register.
def MovePreserves (labels : String → Word t) (base : Word t) (fr : Frame) (args : List Operand)
    (P : (remaining : Nat) → EmitState → Machine t → Prop) : Prop :=
  ∀ ⦃done i indices state m code₁ code₂ state'⦄, registerOrder t args.length = done ++ i :: indices →
    m.get t.sp = wordAddress base (-(args.length - targetRegisterArgCount t : Nat)) →
    P (indices.length + 1) state m →
    emitLoadOperand t fr.locs (t.wordBytes * (args.length - targetRegisterArgCount t : Nat))
      (args.getD i {}) state = .ok (code₁, state') →
    emitArgumentMove t i = .ok code₂ → P indices.length state' (m.run labels (code₁ ++ code₂))

theorem run_pushed (hp : PushPreserves labels (m.get t.sp) fr args P) (hf : Fits t fr args.length)
    (hv : ∀ op ∈ args, op.Valid) (h : Holding fr m args state value)
    (he : emitPushedArguments t fr.locs args (targetRegisterArgCount t) args.length 0 state =
      .ok (code, state')) (h₀ : P args.length state m) :
    Pushed labels value (m.get t.sp) fr args m (m.run labels code)
      (min args.length (targetRegisterArgCount t)) ∧ Cached fr (m.run labels code) state' value ∧
      P (min args.length (targetRegisterArgCount t)) state' (m.run labels code) ∧ CallFree code := by
  have hz : (0 : Int) = args.length - args.length := (Int.sub_self _).symm
  rw [hz] at he
  have ⟨⟨hm, hc, h₀⟩, hc'⟩ := pushedArguments_rule labels
    (I := fun i state m' =>
      Pushed labels value (m.get t.sp) fr args m m' i ∧ Cached fr m' state value ∧ P i state m')
    (fun hl hn ⟨hm, hc, h₀⟩ he =>
      have hop := hv _ <| getD_mem hn
      have ⟨hm', hc⟩ := hm.step hc hf hl hn hop (h.inFrame_of_le hl hn) he
      ⟨⟨hm', hc, hp hl hn hm.sp h₀ he⟩, callFree_loadOperand hop he⟩)
    hf (Nat.le_refl _) ⟨.refl, h.cached, h₀⟩ he
  exact ⟨hm, hc, h₀, hc'⟩

-- A temp that is only in the accumulator is the first argument, which is evaluated first.
theorem Holding.available (h : Holding fr m args state value)
    (ho : registerOrder t args.length = done ++ i :: indices)
    (hs : t = .amd64 → args.length ≤ 6 → done = [] → state' = state) :
    Available fr m (m.get t.sp) (args.length - targetRegisterArgCount t : Nat) value state'
      (args.getD i {}) := by
  intro ht loc hl
  refine (h.slots _ _ hl).imp_right fun ⟨hk, he⟩ => ?_
  have ⟨ha, hn⟩ := he.amd64
  cases ha
  have hi := mem_registerOrder.mp <| ho ▸ List.mem_append_right done List.mem_cons_self
  have hz := he.index hi.left ht
  refine ⟨by simp only [targetRegisterArgCount]; omega, hk, ?_⟩
  cases done
  case nil => exact hs rfl hn rfl ▸ he.right.left
  case cons =>
    have hm : 0 ∉ (registerOrder .amd64 args.length).tail := zero_not_mem_tail_range
    simp [ho, hz] at hm

theorem run_registered (hr : MovePreserves labels base fr args P)
    (hf : Fits t fr args.length) (hv : ∀ op ∈ args, op.Valid)
    (hsp : m.get t.sp = wordAddress base (-(args.length - targetRegisterArgCount t : Nat)))
    (ha : ∀ {done i indices state'}, registerOrder t args.length = done ++ i :: indices →
      (done = [] → state' = state) → Available fr m base
        (args.length - targetRegisterArgCount t : Nat) value state' (args.getD i {}))
    (hc : Cached fr m state value)
    (he : emitRegisterArguments t fr.locs args (registerOrder t args.length) state = .ok (code, state'))
    (h₀ : P (min args.length (targetRegisterArgCount t)) state m) :
    Registered labels value args m (m.run labels code) (registerOrder t args.length) ∧
      Cached fr (m.run labels code) state' value ∧ P 0 state' (m.run labels code) ∧ CallFree code := by
  rw [←length_registerOrder] at h₀
  have ⟨⟨hm, hc, _, h₀⟩, hc'⟩ := registerArguments_rule labels
    (I := fun done state' m' =>
      Registered labels value args m m' done ∧ Cached fr m' state' value ∧
        (done = [] → state' = state) ∧ P ((registerOrder t args.length).length - done.length) state' m')
    (fun {done i indices _ _ _ _ _} ho ⟨hm, hc, hs, h₀⟩ he hm' => by
      have hi := ho ▸ List.mem_append_right done List.mem_cons_self
      have hop : (args.getD i {}).Valid := hv _ <| getD_mem (mem_registerOrder.mp hi).left
      have ⟨hm₁, hc⟩ := hm.step hc hf (ho ▸ order_registerOrder) hop hsp (ha ho hs) he hm'
      have hl : (registerOrder t args.length).length - done.length = indices.length + 1 := by simp [ho]
      have hf := callFree_argumentMove (mem_registerOrder.mp hi).right hm'
      refine ⟨⟨hm₁, hc, by simp, ?_⟩, callFree_append.mpr ⟨callFree_loadOperand hop he, hf⟩⟩
      rw [hl] at h₀
      simpa [ho, Nat.add_sub_add_left] using hr ho (hm.sp.trans hsp) h₀ he hm')
    hf (List.nil_append _).symm ⟨⟨.refl, nofun⟩, hc, fun _ => rfl, h₀⟩ he
  exact ⟨hm, hc, by simpa using h₀, hc'⟩

theorem run_arguments (hp : PushPreserves labels (m.get t.sp) fr args P)
    (hr : MovePreserves labels (m.get t.sp) fr args P) (hf : Fits t fr args.length)
    (hv : ∀ op ∈ args, op.Valid) (h : Holding fr m args state value)
    (he : emitArguments t fr.locs args state = .ok (code, state')) (h₀ : P args.length state m) :
    Delivered labels value (m.get t.sp) fr args m (m.run labels code) ∧
      Cached fr (m.run labels code) state' value ∧ P 0 state' (m.run labels code) ∧ CallFree code := by
  have ⟨⟨pushed, state₁⟩, h₁, he⟩ := Except.bind_eq_ok.mp he
  have ⟨⟨registers, state₂⟩, h₂, he⟩ := Except.bind_eq_ok.mp he
  cases Except.ok.inj he
  have hs (ht : t = .amd64) (hn : args.length ≤ 6) : state₁ = state := by
    have hl : args.length ≤ targetRegisterArgCount t := ht ▸ hn
    rw [emitPushedArguments_le hl] at h₁
    exact (congrArg Prod.snd <| Except.ok.inj h₁).symm
  have ⟨hm, hc, h₀, hf₁⟩ := run_pushed hp hf hv h h₁ h₀
  have hsp : (m.run labels pushed).get t.sp =
      wordAddress (m.get t.sp) (-(args.length - targetRegisterArgCount t : Nat)) := by
    rw [hm.sp]
    congr 1
    omega
  have ⟨hr, hc, h₀, hf₂⟩ := run_registered hr hf hv hsp
    (fun ho hs' ht _ hl => (h.available ho (fun ha hn hd => (hs' hd).trans <| hs ha hn) ht _ hl).imp_left
      (holds_of_frame hm.frame hl)) hc h₂ h₀
  rw [run_append]
  refine ⟨⟨⟨?sp, ?regs, ?words⟩, ?frame, ?keeps⟩, hc, h₀, callFree_append.mpr ⟨hf₁, hf₂⟩⟩
  case sp => exact hr.sp.trans hsp
  case regs => exact fun k hn hk => hr.args k <| mem_registerOrder.mpr ⟨hn, hk⟩
  case words => exact fun k hk hn => hr.keeps.word.trans <| hm.words k (by omega) hn
  case frame => exact fun k h₁ h₂ => hr.keeps.word.trans <| hm.frame k h₁ h₂
  case keeps =>
    exact fun r h₁ h₂ h₃ => (hr.keeps.regs r <| not_or.mpr ⟨h₁, h₃⟩).trans <| hm.regs r h₁ h₂

theorem arguments_delivered (hf : Fits t fr args.length) (hv : ∀ op ∈ args, op.Valid)
    (h : Holding fr m args state value)
    (he : emitArguments t fr.locs args state = .ok (code, state')) :
    Delivered labels value (m.get t.sp) fr args m (m.run labels code) ∧
      Cached fr (m.run labels code) state' value ∧ CallFree code :=
  have hp : PushPreserves labels (m.get t.sp) fr args fun _ _ _ => True := by simp [PushPreserves]
  have hr : MovePreserves labels (m.get t.sp) fr args fun _ _ _ => True := by simp [MovePreserves]
  have ⟨hm, hc, _, hf⟩ := run_arguments hp hr hf hv h he trivial
  ⟨hm, hc, hf⟩

end Evaluation
end Registers
end Hcc.M1
