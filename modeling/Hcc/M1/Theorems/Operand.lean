import Hcc.Library.Fuel
import Hcc.M1.Frame
import Hcc.M1.Theorems.Access

-- The values of operands.
namespace Hcc.M1

open Machine CInteger

variable {t : Target} {m m' : Machine t} {labels : String → Word t} {value : Int → Word t}
         {base : Word t} {fr : Frame} {loc : Loc} {op : Operand} {state state' : EmitState}
         {code : List Insn} {x j : Int}

theorem int_wrap_eq_self (h₁ : 0 ≤ x) (h₂ : x < 2 ^ 31) : IntType.int.wrap x = x := by
  have hm : (IntType.int.modulus : Int) = 2 ^ 32 := by decide
  have hu : IntType.int.unsigned = false := rfl
  rw [IntType.wrap_eq_self_iff, hu, hm]
  simp only [Bool.false_eq_true, if_false]
  omega

theorem ofInt_wrap : BitVec.ofInt t.bits (long.wrap x) = .ofInt t.bits x := by
  have hd : ((2 ^ t.bits : Nat) : Int) ∣ long.modulus := by cases t <;> decide
  have h := (IntType.wrap_modEq (t := long) (x := x)).of_dvd hd
  apply BitVec.eq_of_toNat_eq
  rw [BitVec.toNat_ofInt, BitVec.toNat_ofInt, h.eq]

-- What the reader accepts.
def Operand.Valid (op : Operand) : Prop :=
  op.kind ∈ [OP_TEMP, OP_IMM, OP_BYTES, OP_GLOBAL, OP_FUNC]

-- The value of an operand under given values of the temps.
def operandValue (labels : String → Word t) (value : Int → Word t) (op : Operand) : Word t :=
  if op.kind = OP_IMM then .ofInt _ op.value
  else if op.kind = OP_BYTES then .ofInt _ (bytesValue op t.wordBytes)
  else if op.kind = OP_GLOBAL then labels (op.name.getD "")
  else if op.kind = OP_FUNC then labels ("FUNCTION_" ++ op.name.getD "")
  else value op.value

theorem operandValue_temp (h : op.kind = OP_TEMP) : operandValue labels value op = value op.value := by
  simp [operandValue, h, OP_TEMP, OP_IMM, OP_BYTES, OP_GLOBAL, OP_FUNC]

theorem operandValue_other {value' : Int → Word t} (hv : op.Valid) (h : op.kind ≠ OP_TEMP) :
    operandValue labels value op = operandValue labels value' op := by
  simp only [Operand.Valid, List.mem_cons, List.not_mem_nil, h, false_or, or_false] at hv
  rcases hv with hk | hk | hk | hk <;> simp [operandValue, hk, OP_IMM, OP_BYTES, OP_GLOBAL, OP_FUNC]

-- A stack slot contains the value of its temp, and the value of an object is its address.
def Holds (m : Machine t) (base : Word t) (loc : Loc) (v : Word t) : Prop :=
  match loc.kind with
  | .stack  => m.word base loc.slot = v
  | .object => wordAddress base loc.slot = v

-- The temp in the accumulator.
def Cached (fr : Frame) (m : Machine t) (state : EmitState) (value : Int → Word t) : Prop :=
  ∀ loc, fr.locs state.raxTemp = some loc → loc.kind = .stack → m.get t.acc = value state.raxTemp

theorem wordAddress_of_sp (h : m.get t.sp = wordAddress base (-j)) :
    m.get t.sp + .ofInt _ (t.wordBytes * (x + j)) = wordAddress base x := by
  have hw : m.get t.sp + .ofInt _ (t.wordBytes * (x + j)) = wordAddress (m.get t.sp) (x + j) := rfl
  rw [hw, h, wordAddress_add, Int.add_comm x, Int.neg_add_cancel_left]

theorem offset_eq (hs : 0 ≤ x) (hj : 0 ≤ j) (hb : t.wordBytes * (x + j) < 2 ^ 31) :
    IntType.int.wrap (t.wordBytes * x + t.wordBytes * j) = t.wordBytes * (x + j) := by
  rw [←Int.mul_add]
  exact int_wrap_eq_self (Int.mul_nonneg (Int.natCast_nonneg _) (Int.add_nonneg hs hj)) hb

theorem holds_congr (h : m'.mem = m.mem) : Holds m' base loc v ↔ Holds m base loc v := by
  simp only [Holds, word_congr h]

theorem loads_loadLocation (hsp : m.get t.sp = wordAddress base (-j)) (hj : 0 ≤ j)
    (hs : 0 ≤ loc.slot) (hb : t.wordBytes * (loc.slot + j) < 2 ^ 31) (hv : Holds m base loc v) :
    Loads labels m (emitLoadLocation t loc (t.wordBytes * j)) v := by
  have ho : (0 : Int) ≤ t.wordBytes * (loc.slot + j) :=
    Int.mul_nonneg (Int.natCast_nonneg _) (Int.add_nonneg hs hj)
  simp only [emitLoadLocation, offset_eq hs hj hb]
  rw [Holds] at hv
  split at hv
  case h_1 h =>
    have hl : Loads labels m _ _ := loads_loadStack ho
    rw [wordAddress_of_sp hsp] at hl
    simp only [h, ←hv]
    exact hl
  case h_2 h =>
    have hl : Loads labels m _ _ := loads_addressStack ho
    rw [wordAddress_of_sp hsp] at hl
    simpa only [h, ←hv] using hl

-- The value of an operand can be computed from the memory, or it is already in the accumulator.
def Available (fr : Frame) (m : Machine t) (base : Word t) (j : Int) (value : Int → Word t)
    (state : EmitState) (op : Operand) : Prop :=
  op.kind = OP_TEMP → ∀ loc, fr.locs op.value = some loc →
    Holds m base loc (value op.value) ∨ (j = 0 ∧ loc.kind = .stack ∧ state.raxTemp = op.value)

theorem cached_forget : Cached fr m (emitForgetRax state) value :=
  fun _ h _ => absurd (fr.nonneg h) <| show ¬(0 : Int) ≤ -1 by decide

theorem cached_remember (h : m.get t.acc = value temp) :
    Cached fr m (emitRememberRaxTemp state temp) value :=
  fun _ _ _ => h

theorem lookupLoc_ok (h : lookupLoc locs temp = .ok loc) : locs temp = some loc := by
  rw [lookupLoc] at h
  split at h
  case h_1 => contradiction
  case h_2 he => exact he.trans <| congrArg some <| Except.ok.inj h

theorem bias_eq_zero_iff : (t.wordBytes * j : Int) = 0 ↔ j = 0 := by
  have h := wordBytes_pos (t := t)
  simp only [mul_eq_zero, or_iff_right (Int.ne_of_gt h)]

-- An operand that is in the accumulator already is not loaded.
abbrev Direct (bias : Int) (loc : Loc) : Prop :=
  bias = 0 ∧ loc.kind = .stack

theorem emitLoadOperand_temp (hk : op.kind = OP_TEMP)
    (h : emitLoadOperand t locs bias op state = .ok (code, state')) :
    ∃ loc, locs op.value = some loc ∧
      if Direct bias loc ∧ state.raxTemp = op.value then code = [] ∧ state' = state
      else code = emitLoadLocation t loc bias ∧
        state' = if Direct bias loc then emitRememberRaxTemp state op.value else emitForgetRax state := by
  simp only [emitLoadOperand, hk, OP_TEMP, OP_IMM, OP_BYTES, OP_GLOBAL, OP_FUNC, Int.reduceEq,
    if_false, if_true] at h
  have ⟨loc, hl, h⟩ := Except.bind_eq_ok.mp h
  refine ⟨loc, lookupLoc_ok hl, ?_⟩
  split at h
  case isTrue hc =>
    cases Except.ok.inj h
    rw [if_pos hc]
    exact ⟨rfl, rfl⟩
  case isFalse hc =>
    cases Except.ok.inj h
    rw [if_neg hc]
    exact ⟨rfl, rfl⟩

theorem emitLoadOperand_other (hk : op.Valid) (hn : op.kind ≠ OP_TEMP)
    (h : emitLoadOperand t locs bias op state = .ok (code, state')) :
    Loads labels m code (operandValue labels value op) ∧ CallFree code ∧
      state' = emitForgetRax state := by
  simp only [Operand.Valid, List.mem_cons, List.not_mem_nil, hn, false_or, or_false] at hk
  rcases hk with hk | hk | hk | hk
  all_goals
    simp only [emitLoadOperand, hk, OP_IMM, OP_BYTES, OP_GLOBAL, OP_FUNC, Int.reduceEq, if_false,
      if_true] at h
    cases Except.ok.inj h
    refine ⟨?_, ?_, rfl⟩
    case refine_2 => first | exact callFree_loadImmediate | simp [emitLoadLabel]
    simp only [operandValue, hk, OP_IMM, OP_BYTES, OP_GLOBAL, OP_FUNC, Int.reduceEq, if_false, if_true]
  case inl => exact loads_immediate
  case inr.inl => exact ofInt_wrap (x := bytesValue op t.wordBytes) ▸ loads_immediate
  case inr.inr.inl => exact .of_set rfl
  case inr.inr.inr => exact .of_set rfl

theorem loads_loadOperand (hsp : m.get t.sp = wordAddress base (-j)) (hj : 0 ≤ j)
    (hb : t.wordBytes * (fr.totalSlots + j) < 2 ^ 31) (hk : op.Valid)
    (ha : Available fr m base j value state op) (hc : Cached fr m state value)
    (h : emitLoadOperand t fr.locs (t.wordBytes * j) op state = .ok (code, state')) :
    Loads labels m code (operandValue labels value op) ∧
      Cached fr (m.run labels code) state' value := by
  by_cases ht : op.kind = OP_TEMP
  case pos =>
    have hv : operandValue labels value op = value op.value := operandValue_temp ht
    obtain ⟨loc, hl, h⟩ := emitLoadOperand_temp ht h
    obtain ⟨hs₁, _, hs₂⟩ := fr.bounds hl
    split at h
    case isTrue hd =>
      have hm := (hc loc (hd.right ▸ hl) hd.left.right).trans <| congrArg value hd.right
      refine ⟨?_, ?_⟩
      case refine_1 => exact h.left ▸ hv ▸ .nil hm
      case refine_2 => exact h.left ▸ h.right ▸ hc
    case isFalse hd =>
      have hh : Holds m base loc (value op.value) := by
        refine (ha ht loc hl).resolve_right ?_
        rintro ⟨h₁, h₂, h₃⟩
        exact hd ⟨⟨bias_eq_zero_iff.mpr h₁, h₂⟩, h₃⟩
      have hp := wordBytes_pos (t := t)
      have hm : Loads labels m _ _ := loads_loadLocation hsp hj hs₁ (by nlinarith) hh
      rw [h.left, hv, h.right]
      refine ⟨hm, ?_⟩
      split
      case isTrue => exact cached_remember hm.acc
      case isFalse => exact cached_forget
  case neg =>
    obtain ⟨hl, _, hs⟩ : Loads labels m _ (operandValue _ value _) ∧ _ := emitLoadOperand_other hk ht h
    exact ⟨hl, hs ▸ cached_forget⟩

theorem callFree_loadOperand (hk : op.Valid)
    (h : emitLoadOperand t locs bias op state = .ok (code, state')) : CallFree code := by
  by_cases ht : op.kind = OP_TEMP
  case pos =>
    have ⟨loc, _, h⟩ := emitLoadOperand_temp ht h
    split at h
    case isTrue => exact h.left ▸ callFree_nil
    case isFalse =>
      rw [h.left, emitLoadLocation]
      split
      case h_1 => exact callFree_loadStack
      case h_2 => exact callFree_addressStack
  case neg =>
    have zero : Machine t := ⟨fun _ => 0, fun _ => 0⟩
    have ⟨_, hf, _⟩ : Loads (fun _ => 0) zero _ (operandValue _ (fun _ => 0) _) ∧ _ :=
      emitLoadOperand_other hk ht h
    exact hf

end Hcc.M1
